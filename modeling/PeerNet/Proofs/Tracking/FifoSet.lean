import Mathlib
import PeerNet.Tracking.FifoSet

/-!
# The window of a set that forgets

Every item that is new to the set is noted in a log, which forgets nothing.  What the set still
knows is then the end of the log, as many items as the set has places for (`FifoSet.Remembers`), and
an item is new exactly if it is not among them.

A log that comes about like this is spaced (`FifoSet.Spaced`): between two entries of one item there
are as many others, no two of them alike, as the set has places for.

The same for a set that is empty at first, without the log as a hypothesis, is
`FifoSet.sliding_window`: queue and table hold one window over the items that were new.
-/

namespace PeerNet

namespace FifoSet

variable {α : Type}

/-! ## The log -/

/-- No item of a log is among the `capacity` items that stand before it. -/
def Spaced (capacity : Nat) (log : List α) : Prop :=
  ∀ earlier a later, log = earlier ++ a :: later → a ∉ earlier.rtake capacity

lemma spaced_nil (capacity : Nat) : Spaced capacity ([] : List α) := by
  intro earlier a later h
  exact absurd h (by simp)

/-- The end of a log has all of a shorter end. -/
lemma suffix_rtake_append {earlier window : List α} {n : Nat} (h : window.length ≤ n) :
    window <:+ (earlier ++ window).rtake n := by
  rw [List.rtake, List.length_append, List.drop_append_of_le_length (by omega)]
  exact List.suffix_append ..

/-- What stands far enough behind in a log is not at its end. -/
lemma le_length_of_notMem_rtake {log earlier later : List α} {a : α} {n : Nat}
    (hlog : log = earlier ++ a :: later) (h : a ∉ log.rtake n) : n ≤ later.length := by
  by_contra hshort
  have hsuffix : (a :: later) <:+ log.rtake n := by
    rw [hlog]
    refine suffix_rtake_append ?_
    rw [List.length_cons]
    omega
  exact h (hsuffix.subset List.mem_cons_self)

/-- The last items of a log are as many as asked for, or all. -/
lemma length_rtake_eq_min (log : List α) (n : Nat) :
    (log.rtake n).length = min n log.length := by
  rw [List.rtake, List.length_drop]
  omega

/-- The last items of a log are as many as asked for, if it has so many. -/
lemma length_rtake {log : List α} {n : Nat} (h : n ≤ log.length) : (log.rtake n).length = n := by
  rw [length_rtake_eq_min, min_eq_left h]

/-- The items of a spaced log that stand close together are distinct. -/
lemma Spaced.nodup {capacity : Nat} {log earlier window later : List α} (h : Spaced capacity log)
    (hlog : log = earlier ++ window ++ later) (hlength : window.length ≤ capacity) :
    window.Nodup := by
  induction window using List.reverseRecOn generalizing later with
  | nil => exact List.nodup_nil
  | append_singleton window a ih =>
    rw [List.length_append, List.length_singleton] at hlength
    have hsplit : log = earlier ++ window ++ a :: later := by simp [hlog]
    have hfresh : a ∉ (earlier ++ window).rtake capacity := h _ _ _ hsplit
    have hwindow : window.Nodup := ih hsplit (by omega)
    refine List.nodup_append.mpr ⟨hwindow, List.nodup_singleton a, ?_⟩
    rintro b hb _ hsingle rfl
    rw [List.mem_singleton] at hsingle
    subst hsingle
    have hsuffix : window <:+ (earlier ++ window).rtake capacity :=
      suffix_rtake_append (by omega)
    exact hfresh (hsuffix.subset hb)

/-- Before an item comes up again in a spaced log, as many others have come up as the set has places
for, no two of them alike. -/
lemma Spaced.exists_others {capacity : Nat} {log earlier later : List α} {a : α}
    (h : Spaced capacity log) (hlog : log = earlier ++ a :: later) (hlatest : a ∉ later)
    (hnew : a ∉ log.rtake capacity) :
    ∃ others, others <:+ later ∧ others.length = capacity ∧ others.Nodup ∧ a ∉ others := by
  have hmany : capacity ≤ later.length := le_length_of_notMem_rtake hlog hnew
  have hsuffix : later.rtake capacity <:+ later := List.drop_suffix ..
  have hlength : (later.rtake capacity).length = capacity := length_rtake hmany
  have hsplit : log = (earlier ++ a :: later.take (later.length - capacity)) ++
      later.rtake capacity ++ [] := by
    rw [hlog, List.rtake, List.append_nil, List.append_assoc, List.cons_append,
      List.take_append_drop]
  exact ⟨_, hsuffix, hlength, h.nodup hsplit hlength.le, fun hmem => hlatest (hsuffix.subset hmem)⟩

/-- A log stays spaced if the next item is not among the last ones. -/
lemma Spaced.append_singleton {capacity : Nat} {log : List α} {a : α} (h : Spaced capacity log)
    (hnew : a ∉ log.rtake capacity) : Spaced capacity (log ++ [a]) := by
  intro earlier b later hlog
  rcases List.eq_nil_or_concat later with rfl | ⟨later, c, rfl⟩
  · obtain ⟨rfl, hlast⟩ := List.append_inj' hlog rfl
    obtain rfl : a = b := by simpa using hlast
    exact hnew
  · rw [List.concat_eq_append, ← List.cons_append, ← List.append_assoc] at hlog
    exact h _ _ _ (List.append_inj' hlog rfl).1

/-! ## The set -/

variable [BEq α] [Hashable α]

/-- A set knows the last items of a log of insertions, as many as it has places for. -/
structure Remembers (s : FifoSet α) (log : List α) : Prop where
  capacity_pos : 0 < s.capacity
  toList_order : s.order.toList = log.rtake s.capacity
  contains_iff : ∀ a, s.contains a = true ↔ a ∈ log.rtake s.capacity
  spaced : Spaced s.capacity log

/-- The items that a set knows are distinct. -/
lemma Remembers.nodup {s : FifoSet α} {log : List α} (h : s.Remembers log) :
    (log.rtake s.capacity).Nodup := by
  have hsplit : log = log.take (log.length - s.capacity) ++ log.rtake s.capacity ++ [] := by
    rw [List.rtake, List.take_append_drop, List.append_nil]
  apply h.spaced.nodup hsplit
  rw [length_rtake_eq_min]
  exact min_le_left _ _

/-- A set has as many items as were noted, but no more than it has places for. -/
lemma Remembers.size_eq {s : FifoSet α} {log : List α} (h : s.Remembers log) :
    s.size = min s.capacity log.length := by
  unfold FifoSet.size
  rw [s.order.size_eq_length, h.toList_order, length_rtake_eq_min]

/-- A new set knows the end of the empty log. -/
lemma remembers_ofCapacity (capacity : Nat) :
    (ofCapacity capacity : FifoSet α).Remembers [] where
  capacity_pos := by
    change 0 < max capacity 1
    omega
  toList_order := by simp [ofCapacity, List.rtake]
  contains_iff a := by simp [ofCapacity, contains, List.rtake]
  spaced := spaced_nil _

/-- An item is new if it is not in the set. -/
lemma add_snd (s : FifoSet α) (a : α) : (s.add a).2 = !s.contains a := by
  rw [FifoSet.add]
  split
  · next hmem => rw [hmem, Bool.not_true]
  · next hmem => rw [Bool.eq_false_of_not_eq_true hmem, Bool.not_false]

/-- An item that is not new changes nothing. -/
lemma add_fst_of_not_new {s : FifoSet α} {a : α} (h : (s.add a).2 = false) : (s.add a).1 = s := by
  rw [FifoSet.add] at h ⊢
  split at h
  · next hmem => rw [if_pos hmem]
  · exact absurd h.symm Bool.false_ne_true

variable [LawfulBEq α] [LawfulHashable α] {s : FifoSet α} {log : List α}

/-- A set that is not full is left alone, and a full one loses the oldest of its items. -/
lemma Remembers.makeRoom (h : s.Remembers log) :
    s.makeRoom.capacity = s.capacity ∧
      s.makeRoom.order.toList = log.rtake (s.capacity - 1) ∧
      ∀ a, s.makeRoom.contains a = true ↔ a ∈ log.rtake (s.capacity - 1) := by
  have hpos := h.capacity_pos
  have hsize : s.order.size = (log.rtake s.capacity).length := by
    rw [s.order.size_eq_length, h.toList_order]
  rw [FifoSet.makeRoom]
  split
  · next hroom =>
    -- The log is shorter than the set is large, so one place less holds all of it as well.
    have hshort : log.length < s.capacity := by
      rw [hsize, List.rtake, List.length_drop] at hroom
      omega
    have hsame : log.rtake (s.capacity - 1) = log.rtake s.capacity := by
      rw [List.rtake, List.rtake]
      congr 1
      omega
    rw [hsame]
    exact ⟨rfl, h.toList_order, h.contains_iff⟩
  · next hfull =>
    have hlong : s.capacity ≤ log.length := by
      rw [hsize, List.rtake, List.length_drop] at hfull
      omega
    obtain ⟨oldest, hwindow⟩ : ∃ oldest,
        log.rtake s.capacity = oldest :: log.rtake (s.capacity - 1) := by
      have hlt : log.length - s.capacity < log.length := by omega
      refine ⟨log[log.length - s.capacity], ?_⟩
      rw [List.rtake, List.rtake, List.drop_eq_getElem_cons hlt]
      congr 2
      omega
    have hdistinct : (log.rtake s.capacity).Nodup := h.nodup
    have hpop := s.order.toList_pop?
    rw [h.toList_order, hwindow, if_neg (List.cons_ne_nil _ _)] at hpop
    obtain ⟨⟨a, rest⟩, hsome, hcons⟩ := Option.map_eq_some_iff.mp hpop
    obtain ⟨rfl, hrest⟩ := List.cons_eq_cons.mp hcons
    rw [hsome]
    refine ⟨rfl, hrest, fun b => ?_⟩
    have hmember := h.contains_iff b
    rw [hwindow, List.mem_cons] at hmember
    rw [hwindow, List.nodup_cons] at hdistinct
    change (s.members.erase a).contains b = true ↔ _
    rw [Std.HashSet.contains_erase, Bool.and_eq_true]
    change _ ∧ s.contains b = true ↔ _
    rw [hmember]
    constructor
    · rintro ⟨hne, rfl | hmem⟩
      · exact absurd hne (by simp)
      · exact hmem
    · intro hmem
      refine ⟨?_, .inr hmem⟩
      rw [Bool.not_eq_true', beq_eq_false_iff_ne]
      rintro rfl
      exact hdistinct.1 hmem

/-- An item is new exactly if it is not among the last entries of the log, and is noted then. -/
lemma Remembers.add (h : s.Remembers log) (a : α) :
    (s.add a).1.Remembers (log ++ if (s.add a).2 then [a] else []) ∧
      (s.add a).1.capacity = s.capacity ∧
      ((s.add a).2 = true ↔ a ∉ log.rtake s.capacity) := by
  rw [FifoSet.add]
  split
  · next hmem =>
    have hold : a ∈ log.rtake s.capacity := (h.contains_iff a).mp hmem
    rw [if_neg Bool.false_ne_true, List.append_nil]
    exact ⟨h, rfl, by simp [hold]⟩
  · next hmem =>
    have hnew : a ∉ log.rtake s.capacity := fun hold => hmem ((h.contains_iff a).mpr hold)
    obtain ⟨hcapacity, horder, hcontains⟩ := h.makeRoom
    have hpos := h.capacity_pos
    have hwindow : (log ++ [a]).rtake s.capacity = log.rtake (s.capacity - 1) ++ [a] := by
      obtain ⟨n, hn⟩ : ∃ n, s.capacity = n + 1 := ⟨s.capacity - 1, by omega⟩
      rw [hn, List.rtake_concat_succ, Nat.add_sub_cancel]
    rw [if_pos rfl]
    refine ⟨⟨?_, ?_, fun b => ?_, ?_⟩, hcapacity, by simp [hnew]⟩
    · rw [hcapacity]
      exact hpos
    · rw [hcapacity, hwindow, Queue.toList_push, horder]
    · change (s.makeRoom.members.insert a).contains b = true ↔ _
      rw [hcapacity, hwindow, Std.HashSet.contains_insert, Bool.or_eq_true, List.mem_append,
        List.mem_singleton]
      change _ ∨ s.makeRoom.contains b = true ↔ _
      rw [hcontains, beq_iff_eq]
      constructor
      · rintro (rfl | hold)
        · exact .inr rfl
        · exact .inl hold
      · rintro (hold | rfl)
        · exact .inr hold
        · exact .inl rfl
    · rw [hcapacity]
      exact h.spaced.append_singleton hnew

/-- An item that was added is in the set. -/
lemma contains_add (s : FifoSet α) (a : α) :
    (s.add a).1.contains a = true := by
  rw [FifoSet.add]
  split
  · assumption
  · exact Std.HashSet.contains_insert_self

/-! ## Several items -/

/-- The set with items added one after the other. -/
def addAll (s : FifoSet α) (items : List α) : FifoSet α := items.foldl (fun s a => (s.add a).1) s

/-- Those of them that are new to the set when their turn comes. -/
def inserted (s : FifoSet α) : (items : List α) → List α
  | [] => []
  | a :: rest => (if (s.add a).2 then [a] else []) ++ inserted (s.add a).1 rest

/-- A set to which several items were added remembers the log with those that were new. -/
lemma Remembers.addAll (h : s.Remembers log) (items : List α) :
    (s.addAll items).Remembers (log ++ s.inserted items) ∧
      (s.addAll items).capacity = s.capacity := by
  induction items generalizing s log with
  | nil =>
    rw [inserted, List.append_nil]
    exact ⟨h, rfl⟩
  | cons a rest ih =>
    obtain ⟨hnext, hcapacity, -⟩ := h.add a
    obtain ⟨hall, hcapacity'⟩ := ih hnext
    rw [List.append_assoc] at hall
    exact ⟨hall, hcapacity'.trans hcapacity⟩

/-- An item that is new to the set, and is new to it again after others, has been driven out by
them: as many were inserted in between as the set has places for, no two of them alike. -/
lemma Remembers.exists_others_between (h : s.Remembers log) {a : α} {between : List α}
    (hnew : (s.add a).2 = true) (hagain : (((s.add a).1.addAll between).add a).2 = true) :
    ∃ others : List α, others.Sublist ((s.add a).1.inserted between) ∧
      others.length = s.capacity ∧ others.Nodup ∧ a ∉ others := by
  obtain ⟨hfirst, hcapacity, -⟩ := h.add a
  rw [if_pos hnew] at hfirst
  obtain ⟨hthen, hcapacity'⟩ := hfirst.addAll between
  have hforgotten := (hthen.add a).2.2.mp hagain
  -- What counts is the latest entry of the item, which may be one in between.
  have hmem : a ∈ (a :: (s.add a).1.inserted between).reverse := by simp
  obtain ⟨back, front, hreverse, hlatest⟩ := List.eq_append_cons_of_mem hmem
  have hentries : a :: (s.add a).1.inserted between = front.reverse ++ a :: back.reverse := by
    rw [← List.reverse_reverse (a :: _), hreverse]
    simp
  have hlog : log ++ [a] ++ (s.add a).1.inserted between =
      (log ++ front.reverse) ++ a :: back.reverse := by
    rw [List.append_assoc, List.singleton_append, hentries, List.append_assoc]
  obtain ⟨others, hothers, hlength, hnodup, hother⟩ :=
    hthen.spaced.exists_others hlog (by simpa using hlatest) hforgotten
  refine ⟨others, ?_, ?_, hnodup, hother⟩
  · have hsuffix : a :: back.reverse <:+ a :: (s.add a).1.inserted between := ⟨_, hentries.symm⟩
    rcases List.suffix_cons_iff.mp hsuffix with hall | hlater
    · rw [← (List.cons_eq_cons.mp hall).2]
      exact hothers.sublist
    · exact (hothers.trans ((List.suffix_cons a _).trans hlater)).sublist
  · rw [hlength, hcapacity', hcapacity]

/-! ## A sliding window -/

/-- The table has the items that are queued for eviction, each of them once. -/
lemma Remembers.members_perm (h : s.Remembers log) :
    s.members.toList.Perm s.order.toList := by
  have hdistinct : s.members.toList.Nodup := by
    refine Std.HashSet.distinct_toList.imp ?_
    intro a b hab
    exact beq_eq_false_iff_ne.mp hab
  rw [h.toList_order]
  refine (List.perm_ext_iff_of_nodup hdistinct h.nodup).mpr ?_
  intro a
  rw [Std.HashSet.mem_toList, Std.HashSet.mem_iff_contains]
  exact h.contains_iff a

/-- Whatever is added to a new set, the set is a window that slides over the items that were new
when they were added: it has the last of them, as many as it has places for and no item twice, in
the queue and in the table alike, and an item is new exactly if it is not in the window.  A set for
no items at all has one place. -/
theorem sliding_window (capacity : Nat) (items : List α) :
    let s := (ofCapacity capacity : FifoSet α).addAll items
    let log := (ofCapacity capacity : FifoSet α).inserted items
    let window := log.rtake (max 1 capacity)
    (∀ a, (s.add a).2 = true ↔ a ∉ window) ∧
    (∀ a, s.contains a = true ↔ a ∈ window) ∧
    window.Nodup ∧
    s.size = min (max 1 capacity) log.length ∧
    s.order.toList = window ∧
    s.members.toList.Perm s.order.toList := by
  intro s log window
  have hnew : (ofCapacity capacity : FifoSet α).Remembers [] := remembers_ofCapacity capacity
  obtain ⟨hs, hcapacity⟩ := hnew.addAll items
  have hplaces : s.capacity = max 1 capacity := hcapacity.trans (max_comm _ _)
  have hwindow : ([] ++ log).rtake s.capacity = window := by
    rw [List.nil_append, hplaces]
  refine ⟨?_, ?_, ?_, ?_, ?_, hs.members_perm⟩
  · intro a
    rw [← hwindow]
    exact (hs.add a).2.2
  · intro a
    rw [← hwindow]
    exact hs.contains_iff a
  · rw [← hwindow]
    exact hs.nodup
  · rw [← hplaces]
    exact hs.size_eq
  · rw [← hwindow]
    exact hs.toList_order

/-- With two places, the third item that is new drives out the first, which is new again then,
though it came a second time before; with no place at all every item that is not the last is new. -/
theorem sliding_window_of_two_places :
    let s := (ofCapacity 2 : FifoSet Nat).addAll [1, 2, 1, 3]
    (ofCapacity 2 : FifoSet Nat).inserted [1, 2, 1, 3] = [1, 2, 3] ∧
    (s.add 1).2 = true ∧ s.contains 2 = true ∧ s.size = 2 ∧ s.members.toList.Perm [2, 3] ∧
    (((ofCapacity 0 : FifoSet Nat).addAll [1, 2]).add 1).2 = true := by
  intro s
  have hlog : (ofCapacity 2 : FifoSet Nat).inserted [1, 2, 1, 3] = [1, 2, 3] := by cbv
  have hlog₀ : (ofCapacity 0 : FifoSet Nat).inserted [1, 2] = [1, 2] := by cbv
  obtain ⟨hadd, hcontains, -, hsize, horder, hmembers⟩ := sliding_window 2 [1, 2, 1, 3]
  obtain ⟨hadd₀, -⟩ := sliding_window 0 [1, 2]
  rw [hlog] at hadd hcontains hsize horder
  rw [hlog₀] at hadd₀
  rw [horder] at hmembers
  refine ⟨hlog, (hadd 1).mpr ?_, (hcontains 2).mpr ?_, hsize, hmembers, (hadd₀ 1).mpr ?_⟩ <;> decide

end FifoSet

end PeerNet
