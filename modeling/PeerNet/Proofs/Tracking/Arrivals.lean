import PeerNet.Proofs.Tracking.PendingHashes

/-!
# Awaited items as a list

Of the items that are awaited nothing can be found out but what a plain list would tell: each item
once, with the time at which it came, in order of arrival (`Arrivals`).  An item is added at the end
unless it is in the list, is removed wherever it stands, and a sweep takes as much from the front as
is overdue.

The collection itself keeps a table and an arrival queue, in which places stay behind when their
items are removed.  What the places stand for is such a list (`PendingHashes.arrivals`).  The
numbers of the places grow along the queue and everything in the table has its place
(`PendingHashes.Orderly`), so no item has two live places, and each operation does to the list what
its name says.
-/

namespace PeerNet

/-! ## The list -/

/-- Items with the times at which they came, in order of arrival. -/
abbrev Arrivals (α : Type) := List (α × Nat)

namespace Arrivals

variable {α : Type}

/-- Whether an item came more than `timeout` before `now`. -/
def isOverdue (now timeout : Nat) (entry : α × Nat) : Bool := timeout < now - entry.2

/-- Takes from the front all that is overdue, up to the first item that is not, and counts it. -/
def sweep (l : Arrivals α) (now timeout : Nat) : Arrivals α × Nat :=
  (l.dropWhile (isOverdue now timeout), (l.takeWhile (isOverdue now timeout)).length)

/-- In a list in order of time a sweep takes all that is overdue. -/
lemma sweep_of_pairwise {l : Arrivals α} (h : l.Pairwise fun e e' => e.2 ≤ e'.2)
    (now timeout : Nat) :
    sweep l now timeout =
      (l.filter (!isOverdue now timeout ·), l.countP (isOverdue now timeout)) := by
  induction l with
  | nil => rfl
  | cons e l ih =>
    obtain ⟨hfirst, hrest⟩ := List.pairwise_cons.mp h
    by_cases hold : isOverdue now timeout e = true
    · have hsweep := ih hrest
      rw [sweep, Prod.mk.injEq] at hsweep
      rw [sweep, List.dropWhile_cons_of_pos hold, List.takeWhile_cons_of_pos hold, hsweep.1,
        List.length_cons, hsweep.2, List.countP_cons_of_pos hold,
        List.filter_cons_of_neg (by simp [hold])]
    · -- Behind an item that is not overdue none is.
      have hfresh : ∀ e' ∈ e :: l, isOverdue now timeout e' = false := by
        intro e' he'
        have hle : e.2 ≤ e'.2 := by
          rcases List.mem_cons.mp he' with rfl | he'
          · exact Nat.le_refl _
          · exact hfirst e' he'
        simp only [isOverdue, decide_eq_true_eq, decide_eq_false_iff_not] at hold ⊢
        omega
      have hnone : (e :: l).countP (isOverdue now timeout) = 0 :=
        List.countP_eq_zero.mpr fun e' he' => by simp [hfresh e' he']
      have hall : (e :: l).filter (!isOverdue now timeout ·) = e :: l :=
        List.filter_eq_self.mpr fun e' he' => by simp [hfresh e' he']
      rw [sweep, List.dropWhile_cons_of_neg hold, List.takeWhile_cons_of_neg hold, hnone, hall,
        List.length_nil]

variable [BEq α]

/-- Whether an item is in the list. -/
def contains (l : Arrivals α) (a : α) : Bool := l.any (·.1 == a)

/-- Adds an item at the end, unless it is in the list. -/
def add (l : Arrivals α) (a : α) (now : Nat) : Arrivals α × Bool :=
  if contains l a then (l, false) else (l ++ [(a, now)], true)

/-- Takes an item out, and tells whether it was in the list. -/
def remove (l : Arrivals α) (a : α) : Arrivals α × Bool := (l.filter (·.1 != a), contains l a)

end Arrivals

namespace PendingHashes

variable {α : Type}

/-! ## Operations and what they answer -/

/-- What can be done to a collection of awaited items. -/
inductive Operation (α : Type)
  | add (a : α) (now : Nat)
  | remove (a : α)
  | contains (a : α)
  | sweep (now timeout : Nat)

/-- The time that is given to an operation, if any is. -/
def Operation.time? : Operation α → Option Nat
  | add _ now | sweep now _ => some now
  | remove _ | contains _ => none

/-- What an operation answers. -/
inductive Answer
  | told (yes : Bool)
  | counted (expired : Nat)
  deriving DecidableEq

/-- A collection in the course of operations, with all that they answered. -/
structure Course (σ : Type) where
  state : σ
  answers : List Answer

/-- One more operation. -/
def Course.advance {σ : Type} (perform : σ → Operation α → σ × Answer) (c : Course σ)
    (op : Operation α) : Course σ :=
  ⟨(perform c.state op).1, c.answers ++ [(perform c.state op).2]⟩

/-- What operations lead to. -/
def course {σ : Type} (perform : σ → Operation α → σ × Answer) (start : σ)
    (ops : List (Operation α)) : Course σ :=
  ops.foldl (Course.advance perform) ⟨start, []⟩

lemma course_concat {σ : Type} (perform : σ → Operation α → σ × Answer) (start : σ)
    (ops : List (Operation α)) (op : Operation α) :
    course perform start (ops ++ [op]) = (course perform start ops).advance perform op :=
  List.foldl_concat ..

section Perform

variable [BEq α]

/-- An operation on a plain list. -/
def performOnList (l : Arrivals α) : Operation α → Arrivals α × Answer
  | .add a now => ((Arrivals.add l a now).1, .told (Arrivals.add l a now).2)
  | .remove a => ((Arrivals.remove l a).1, .told (Arrivals.remove l a).2)
  | .contains a => (l, .told (Arrivals.contains l a))
  | .sweep now timeout =>
    ((Arrivals.sweep l now timeout).1, .counted (Arrivals.sweep l now timeout).2)

variable [Hashable α]

/-- An operation on a collection of awaited items. -/
def perform (p : PendingHashes α) : Operation α → PendingHashes α × Answer
  | .add a now => ((p.add a now).1, .told (p.add a now).2)
  | .remove a => ((p.remove a).1, .told (p.remove a).2)
  | .contains a => (p, .told (p.contains a))
  | .sweep now timeout => ((p.sweep now timeout).1, .counted (p.sweep now timeout).2)

end Perform

/-- The times in a plain list are some of those that its operations were given, in the same
order. -/
lemma times_sublist [BEq α] (ops : List (Operation α)) :
    ((course performOnList [] ops).state.map Prod.snd).Sublist
      (ops.filterMap Operation.time?) := by
  induction ops using List.reverseRecOn with
  | nil => exact List.Sublist.refl _
  | append_singleton ops op ih =>
    rw [course_concat, List.filterMap_append]
    cases op with
    | add a now =>
      change ((Arrivals.add _ a now).1.map Prod.snd).Sublist _
      rw [Arrivals.add]
      split
      · exact ih.trans (List.sublist_append_left ..)
      · rw [List.map_append]
        exact ih.append (List.Sublist.refl _)
    | remove a =>
      have hrest := (List.filter_sublist (p := fun e : α × Nat => e.1 != a)
        (l := (course performOnList [] ops).state)).map Prod.snd
      exact (hrest.trans ih).trans (List.sublist_append_left ..)
    | contains a => exact ih.trans (List.sublist_append_left ..)
    | sweep now timeout =>
      have hrest := (List.dropWhile_sublist (l := (course performOnList [] ops).state)
        (Arrivals.isOverdue now timeout)).map Prod.snd
      exact (hrest.trans ih).trans (List.sublist_append_left ..)

/-! ## What the places stand for -/

variable [BEq α] [Hashable α]

/-- What a place in the arrival queue stands for, unless it was left behind. -/
def standsFor? (entries : Std.HashMap α (Nat × Nat)) (place : α × Nat) : Option (α × Nat) :=
  match entries[place.1]? with
  | some (number, since) => if number == place.2 then some (place.1, since) else none
  | none => none

/-- What the places of a queue stand for. -/
def listing (queue : List (α × Nat)) (entries : Std.HashMap α (Nat × Nat)) : Arrivals α :=
  queue.filterMap (standsFor? entries)

/-- The awaited items in order of arrival. -/
def arrivals (p : PendingHashes α) : Arrivals α := listing p.queue.toList p.entries

/-- The numbers of the places grow, and everything that is awaited has its place. -/
structure Orderly (queue : List (α × Nat)) (entries : Std.HashMap α (Nat × Nat)) : Prop where
  ordered : queue.Pairwise fun place place' => place.2 < place'.2
  placed : ∀ a number since, entries[a]? = some (number, since) → (a, number) ∈ queue

/-- The places are in order, and no number was given out that is still to come. -/
structure Sound (p : PendingHashes α) : Prop where
  orderly : Orderly p.queue.toList p.entries
  bounded : ∀ place ∈ p.queue.toList, place.2 < p.nextNumber

variable {p : PendingHashes α} {queue : List (α × Nat)} {entries : Std.HashMap α (Nat × Nat)}

/-- A place stands for an item if the item was given the number of that place. -/
lemma standsFor?_eq_some_iff {place : α × Nat} {a : α} {since : Nat} :
    standsFor? entries place = some (a, since) ↔
      place.1 = a ∧ entries[a]? = some (place.2, since) := by
  rw [standsFor?]
  constructor
  · intro h
    split at h
    · next number since' hentry =>
      split_ifs at h with hnumber
      obtain ⟨rfl, rfl⟩ := Prod.mk.inj (Option.some.inj h)
      rw [beq_iff_eq] at hnumber
      subst hnumber
      exact ⟨rfl, hentry⟩
    · exact absurd h (by simp)
  · rintro ⟨rfl, hentry⟩
    rw [hentry]
    simp

/-- A place that was left behind stands for nothing. -/
lemma standsFor?_of_not_isLive {place : α × Nat} (h : isLive entries place = false) :
    standsFor? entries place = none := by
  rw [isLive] at h
  rw [standsFor?]
  cases hentry : entries[place.1]? with
  | none => rfl
  | some entry =>
    rw [hentry] at h
    exact if_neg (Bool.eq_false_iff.mp h)

/-- An item is awaited since some time if it has a live place. -/
lemma mem_listing (h : Orderly queue entries) {a : α} {since : Nat} :
    (a, since) ∈ listing queue entries ↔ ∃ number, entries[a]? = some (number, since) := by
  rw [listing, List.mem_filterMap]
  constructor
  · rintro ⟨place, -, hplace⟩
    exact ⟨place.2, (standsFor?_eq_some_iff.mp hplace).2⟩
  · rintro ⟨number, hentry⟩
    exact ⟨(a, number), h.placed a number since hentry, standsFor?_eq_some_iff.mpr ⟨rfl, hentry⟩⟩

/-- No item has two live places. -/
lemma nodup_listing (h : Orderly queue entries) : ((listing queue entries).map Prod.fst).Nodup := by
  rw [List.Nodup, List.pairwise_map, listing, List.pairwise_filterMap]
  refine h.ordered.imp ?_
  intro place place' hlt e he e' he' hsame
  obtain ⟨a, since⟩ := e
  obtain ⟨a', since'⟩ := e'
  obtain ⟨-, hentry⟩ := standsFor?_eq_some_iff.mp he
  obtain ⟨-, hentry'⟩ := standsFor?_eq_some_iff.mp he'
  obtain rfl : a = a' := hsame
  rw [hentry] at hentry'
  have hnumber : place.2 = place'.2 := (Prod.mk.inj (Option.some.inj hentry')).1
  omega

lemma sound_empty : (empty : PendingHashes α).Sound where
  orderly := ⟨List.Pairwise.nil, fun a number since h => by simp [empty] at h⟩
  bounded place h := absurd h List.not_mem_nil

/-- The arrivals are the items that are awaited, each since when it is. -/
lemma Sound.mem_arrivals (h : p.Sound) {a : α} {since : Nat} :
    (a, since) ∈ p.arrivals ↔ p.since? a = some since := by
  rw [arrivals, mem_listing h.orderly, since?, Option.map_eq_some_iff]
  constructor
  · rintro ⟨number, hentry⟩
    exact ⟨(number, since), hentry, rfl⟩
  · rintro ⟨⟨number, _⟩, hentry, rfl⟩
    exact ⟨number, hentry⟩

/-- The first place is listed first, if it stands for something. -/
lemma listing_cons (place : α × Nat) (queue : List (α × Nat))
    (entries : Std.HashMap α (Nat × Nat)) :
    listing (place :: queue) entries =
      (standsFor? entries place).toList ++ listing queue entries := by
  rw [listing, List.filterMap_cons]
  cases standsFor? entries place <;> rfl

/-- Places that were left behind may be discarded. -/
lemma listing_filter_isLive (queue : List (α × Nat)) (entries : Std.HashMap α (Nat × Nat)) :
    listing (queue.filter (isLive entries)) entries = listing queue entries := by
  rw [listing, listing, List.filterMap_filter]
  refine List.filterMap_congr fun place _ => ?_
  split_ifs with hlive
  · rfl
  · exact (standsFor?_of_not_isLive (Bool.eq_false_of_not_eq_true hlive)).symm

/-- A place that was left behind at the head of the queue may go. -/
lemma Orderly.discard {place : α × Nat} (h : Orderly (place :: queue) entries)
    (hbehind : standsFor? entries place = none) :
    Orderly queue entries ∧ listing (place :: queue) entries = listing queue entries := by
  refine ⟨⟨(List.pairwise_cons.mp h.ordered).2, fun a number since hentry => ?_⟩, ?_⟩
  · rcases List.mem_cons.mp (h.placed a number since hentry) with rfl | hmem
    · have hlive : standsFor? entries (a, number) = some (a, since) :=
        standsFor?_eq_some_iff.mpr ⟨rfl, hentry⟩
      rw [hbehind] at hlive
      exact absurd hlive (by simp)
    · exact hmem
  · rw [listing_cons, hbehind]
    rfl

/-- An item is removed if it was awaited. -/
lemma remove_snd (p : PendingHashes α) (a : α) : (p.remove a).2 = p.contains a := by
  rw [PendingHashes.remove]
  split
  · next hmem => exact hmem.symm
  · next hmem => exact (Bool.eq_false_of_not_eq_true hmem).symm

variable [LawfulBEq α] [LawfulHashable α]

/-- What is awaited is found among the arrivals. -/
lemma Sound.contains_arrivals (h : p.Sound) (a : α) :
    Arrivals.contains p.arrivals a = p.contains a := by
  rw [Bool.eq_iff_iff, Arrivals.contains, List.any_eq_true, contains_eq_isSome,
    Option.isSome_iff_exists]
  constructor
  · rintro ⟨⟨a', since⟩, hmem, hsame⟩
    obtain rfl : a' = a := eq_of_beq hsame
    exact ⟨since, h.mem_arrivals.mp hmem⟩
  · rintro ⟨since, hsince⟩
    exact ⟨(a, since), h.mem_arrivals.mpr hsince, beq_self_eq_true a⟩

/-- There are as many arrivals as items that are awaited. -/
lemma Sound.size_eq (h : p.Sound) : p.size = p.arrivals.length := by
  have hperm : (p.arrivals.map Prod.fst).Perm p.entries.keys := by
    refine (List.perm_ext_iff_of_nodup (nodup_listing h.orderly) Std.HashMap.nodup_keys).mpr ?_
    intro a
    have hcontains := h.contains_arrivals a
    rw [contains, Bool.eq_iff_iff, Std.HashMap.contains_iff_mem, Arrivals.contains,
      List.any_eq_true] at hcontains
    rw [Std.HashMap.mem_keys, ← hcontains, List.mem_map]
    exact exists_congr fun e => and_congr_right fun _ => beq_iff_eq.symm
  rw [size, ← Std.HashMap.length_keys, ← hperm.length_eq, List.length_map]

/-! ## Operations -/

/-- A new item comes last in the list. -/
lemma Sound.arrivals_add (h : p.Sound) (a : α) (now : Nat) :
    (p.add a now).1.arrivals = (Arrivals.add p.arrivals a now).1 := by
  rw [Arrivals.add, h.contains_arrivals, add]
  split
  · rfl
  · next hnew =>
    have hnone : p.entries[a]? = none := by simpa [contains] using hnew
    have hothers : ∀ place ∈ p.queue.toList,
        standsFor? (p.entries.insert a (p.nextNumber, now)) place = standsFor? p.entries place := by
      intro place hplace
      rw [standsFor?, standsFor?, Std.HashMap.getElem?_insert]
      split_ifs with hsame
      · -- A place that was left behind by the same item has another number.
        obtain rfl : a = place.1 := eq_of_beq hsame
        have hlt := h.bounded place hplace
        rw [hnone]
        dsimp only
        rw [if_neg (by simp; omega)]
      · rfl
    have hlast : standsFor? (p.entries.insert a (p.nextNumber, now)) (a, p.nextNumber) =
        some (a, now) :=
      standsFor?_eq_some_iff.mpr ⟨rfl, Std.HashMap.getElem?_insert_self⟩
    rw [arrivals, Queue.toList_push, listing, List.filterMap_append,
      List.filterMap_congr hothers, List.filterMap_cons, hlast]
    rfl

/-- Adding an item keeps the places in order: its number is greater than all before it. -/
lemma Sound.add (h : p.Sound) (a : α) (now : Nat) : (p.add a now).1.Sound := by
  rw [PendingHashes.add]
  split
  · exact h
  · refine ⟨⟨?_, ?_⟩, ?_⟩
    · rw [Queue.toList_push, List.pairwise_append]
      refine ⟨h.orderly.ordered, List.pairwise_singleton .., ?_⟩
      intro place hplace place' hlast
      rw [List.mem_singleton.mp hlast]
      exact h.bounded place hplace
    · intro x number since hentry
      rw [Queue.toList_push, List.mem_append]
      rw [Std.HashMap.getElem?_insert] at hentry
      split_ifs at hentry with hsame
      · obtain rfl : a = x := eq_of_beq hsame
        obtain ⟨rfl, -⟩ := Prod.mk.inj (Option.some.inj hentry)
        exact .inr List.mem_cons_self
      · exact .inl (h.orderly.placed x number since hentry)
    · intro place hplace
      rw [Queue.toList_push, List.mem_append, List.mem_singleton] at hplace
      change place.2 < p.nextNumber + 1
      rcases hplace with hplace | rfl
      · exact Nat.lt_succ_of_lt (h.bounded place hplace)
      · exact Nat.lt_succ_self _

/-- Without its entry in the table an item is not in the list, whatever places it has. -/
lemma listing_erase (queue : List (α × Nat)) (entries : Std.HashMap α (Nat × Nat)) (a : α) :
    listing queue (entries.erase a) = (listing queue entries).filter (·.1 != a) := by
  rw [listing, listing, List.filter_filterMap]
  refine List.filterMap_congr fun place _ => Option.ext fun e => ?_
  obtain ⟨x, since⟩ := e
  rw [Option.filter_eq_some_iff, standsFor?_eq_some_iff, standsFor?_eq_some_iff,
    Std.HashMap.getElem?_erase, bne_iff_ne]
  by_cases hsame : a = x
  · simp [hsame]
  · have hother : x ≠ a := Ne.symm hsame
    simp [hsame, hother]

/-- The item that is removed leaves the list. -/
lemma Sound.arrivals_remove (h : p.Sound) (a : α) :
    (p.remove a).1.arrivals = (Arrivals.remove p.arrivals a).1 := by
  change _ = p.arrivals.filter (·.1 != a)
  rw [PendingHashes.remove]
  split
  · rw [arrivals, arrivals, ← listing_erase]
    dsimp only
    split
    · rw [Queue.toList_filter]
      exact listing_filter_isLive ..
    · rfl
  · next hmissing =>
    refine (List.filter_eq_self.mpr ?_).symm
    rintro ⟨x, since⟩ hmem
    rw [bne_iff_ne]
    rintro rfl
    rw [h.mem_arrivals] at hmem
    rw [contains_eq_isSome, hmem] at hmissing
    exact hmissing rfl

/-- Removing an item leaves its place behind, and all others in order. -/
lemma Sound.remove (h : p.Sound) (a : α) : (p.remove a).1.Sound := by
  rw [PendingHashes.remove]
  split
  · have hplaced : ∀ x number since, (p.entries.erase a)[x]? = some (number, since) →
        (x, number) ∈ p.queue.toList := by
      intro x number since hentry
      rw [Std.HashMap.getElem?_erase] at hentry
      split_ifs at hentry
      exact h.orderly.placed x number since hentry
    dsimp only
    split
    · have hsublist := List.filter_sublist (p := isLive (p.entries.erase a)) (l := p.queue.toList)
      rw [← Queue.toList_filter] at hsublist
      refine ⟨⟨h.orderly.ordered.sublist hsublist, fun x number since hentry => ?_⟩,
        fun place hplace => h.bounded place (hsublist.subset hplace)⟩
      rw [Queue.toList_filter, List.mem_filter]
      refine ⟨hplaced x number since hentry, ?_⟩
      rw [isLive, hentry]
      exact beq_self_eq_true number
    · exact ⟨⟨h.orderly.ordered, hplaced⟩, h.bounded⟩
  · exact h

/-- The item at the head of the queue may be given up. -/
lemma Orderly.expire {a : α} {number since : Nat} (h : Orderly ((a, number) :: queue) entries)
    (hentry : entries[a]? = some (number, since)) :
    Orderly queue (entries.erase a) ∧
      listing ((a, number) :: queue) entries = (a, since) :: listing queue (entries.erase a) := by
  have hlive : standsFor? entries (a, number) = some (a, since) :=
    standsFor?_eq_some_iff.mpr ⟨rfl, hentry⟩
  refine ⟨⟨(List.pairwise_cons.mp h.ordered).2, fun x number' since' hentry' => ?_⟩, ?_⟩
  · rw [Std.HashMap.getElem?_erase] at hentry'
    split_ifs at hentry' with hsame
    rcases List.mem_cons.mp (h.placed x number' since' hentry') with hhead | hmem
    · exact absurd (Prod.mk.inj hhead).1.symm (by simpa using hsame)
    · exact hmem
  · -- It has no other live place, so the rest of the list is as it was.
    have hnodup := nodup_listing h
    rw [listing_cons, hlive, Option.toList_some, List.singleton_append, List.map_cons,
      List.nodup_cons] at hnodup
    rw [listing_cons, hlive, Option.toList_some, List.singleton_append, listing_erase,
      List.filter_eq_self.mpr]
    intro e he
    rw [bne_iff_ne]
    intro hsame
    exact hnodup.1 (List.mem_map.mpr ⟨e, he, hsame⟩)

/-- A sweep goes over a queue. -/
lemma Orderly.sweepFrom (h : Orderly queue entries) (now timeout expired : Nat) :
    let swept := sweepFrom now timeout queue entries expired
    Orderly swept.1 swept.2.1 ∧ swept.1 <:+ queue ∧
      listing swept.1 swept.2.1 = (Arrivals.sweep (listing queue entries) now timeout).1 ∧
      swept.2.2 = expired + (Arrivals.sweep (listing queue entries) now timeout).2 := by
  induction queue generalizing entries expired with
  | nil => exact ⟨h, List.suffix_rfl, rfl, rfl⟩
  | cons place queue ih =>
    obtain ⟨a, place⟩ := place
    rw [PendingHashes.sweepFrom]
    split
    · next hentry =>
      have hbehind : standsFor? entries (a, place) = none := by rw [standsFor?, hentry]
      obtain ⟨hrest, hlisting⟩ := h.discard hbehind
      obtain ⟨horderly, hsuffix, hswept⟩ := ih hrest expired
      rw [hlisting]
      exact ⟨horderly, hsuffix.trans (List.suffix_cons ..), hswept⟩
    · next number since hentry =>
      split_ifs with hstale hfresh
      · have hbehind : standsFor? entries (a, place) = none := by
          rw [standsFor?, hentry]
          exact if_neg (by simpa using hstale)
        obtain ⟨hrest, hlisting⟩ := h.discard hbehind
        obtain ⟨horderly, hsuffix, hswept⟩ := ih hrest expired
        rw [hlisting]
        exact ⟨horderly, hsuffix.trans (List.suffix_cons ..), hswept⟩
      · obtain rfl : number = place := by simpa using hstale
        have hnot : ¬ Arrivals.isOverdue now timeout (a, since) = true := fun hold =>
          absurd hfresh (Nat.not_le_of_lt (of_decide_eq_true hold))
        have hkept : Arrivals.sweep (listing ((a, number) :: queue) entries) now timeout =
            (listing ((a, number) :: queue) entries, 0) := by
          rw [(h.expire hentry).2, Arrivals.sweep, List.dropWhile_cons_of_neg hnot,
            List.takeWhile_cons_of_neg hnot, List.length_nil]
        rw [hkept]
        exact ⟨h, List.suffix_rfl, rfl, rfl⟩
      · obtain rfl : number = place := by simpa using hstale
        have hold : Arrivals.isOverdue now timeout (a, since) = true :=
          decide_eq_true (Nat.lt_of_not_le hfresh)
        obtain ⟨hrest, hlisting⟩ := h.expire hentry
        obtain ⟨horderly, hsuffix, hlist, hcount⟩ := ih hrest (expired + 1)
        rw [hlisting, Arrivals.sweep, List.dropWhile_cons_of_pos hold,
          List.takeWhile_cons_of_pos hold, List.length_cons]
        refine ⟨horderly, hsuffix.trans (List.suffix_cons ..), hlist, ?_⟩
        rw [hcount, Arrivals.sweep]
        omega

/-- A sweep takes all that is overdue from the front of the list, and counts it. -/
lemma Sound.sweep (h : p.Sound) (now timeout : Nat) :
    (p.sweep now timeout).1.Sound ∧
      (p.sweep now timeout).1.arrivals = (Arrivals.sweep p.arrivals now timeout).1 ∧
      (p.sweep now timeout).2 = (Arrivals.sweep p.arrivals now timeout).2 := by
  obtain ⟨horderly, hsuffix, hlist, hcount⟩ := h.orderly.sweepFrom now timeout 0
  rw [Nat.zero_add] at hcount
  rw [PendingHashes.sweep]
  refine ⟨⟨?_, ?_⟩, ?_, hcount⟩
  · rw [Queue.toList_ofList]
    exact horderly
  · rw [Queue.toList_ofList]
    exact fun place hplace => h.bounded place (hsuffix.subset hplace)
  · rw [arrivals, Queue.toList_ofList]
    exact hlist

/-- Each operation does to the list what its name says, and answers what the list would. -/
lemma Sound.perform (h : p.Sound) (op : Operation α) :
    (p.perform op).1.Sound ∧ (p.perform op).1.arrivals = (performOnList p.arrivals op).1 ∧
      (p.perform op).2 = (performOnList p.arrivals op).2 := by
  cases op with
  | add a now =>
    refine ⟨h.add a now, h.arrivals_add a now, congrArg Answer.told ?_⟩
    rw [add_snd, ← h.contains_arrivals, Arrivals.add]
    split
    · next hmem => rw [hmem, Bool.not_true]
    · next hmem => rw [Bool.eq_false_of_not_eq_true hmem, Bool.not_false]
  | remove a =>
    refine ⟨h.remove a, h.arrivals_remove a, congrArg Answer.told ?_⟩
    rw [remove_snd, ← h.contains_arrivals]
    rfl
  | contains a => exact ⟨h, rfl, congrArg Answer.told (h.contains_arrivals a).symm⟩
  | sweep now timeout =>
    obtain ⟨hsound, hlist, hcount⟩ := h.sweep now timeout
    exact ⟨hsound, hlist, congrArg Answer.counted hcount⟩

/-- In the course of any operations the collection stands for the list. -/
lemma sound_course (ops : List (Operation α)) :
    (course perform empty ops).state.Sound ∧
      (course perform empty ops).state.arrivals = (course performOnList [] ops).state ∧
      (course perform (empty : PendingHashes α) ops).answers =
        (course performOnList [] ops).answers := by
  induction ops using List.reverseRecOn with
  | nil => exact ⟨sound_empty, rfl, rfl⟩
  | append_singleton ops op ih =>
    obtain ⟨hsound, hlist, hanswers⟩ := ih
    obtain ⟨hsound', hlist', hanswer⟩ := hsound.perform op
    rw [hlist] at hlist' hanswer
    rw [course_concat, course_concat]
    refine ⟨hsound', hlist', ?_⟩
    rw [Course.advance, Course.advance, hanswers, hanswer]

/-- Whatever is done to a collection that is empty at first, and whenever, it answers what a plain
list would: no place that was left behind, no item that comes again and no cleaning up of the queue
is ever noticed.  The list has each item once, namely the awaited ones with the times at which they
came, and there are as many as the collection says.

If no time that is given is earlier than one before, a sweep gives up the items that are overdue,
and no others, and counts them. -/
theorem refines_arrivals (ops : List (Operation α)) :
    let pending := course perform (empty : PendingHashes α) ops
    let list := course performOnList ([] : Arrivals α) ops
    pending.answers = list.answers ∧
    (list.state.map Prod.fst).Nodup ∧
    (∀ a since, (a, since) ∈ list.state ↔ pending.state.since? a = some since) ∧
    pending.state.size = list.state.length ∧
    ((ops.filterMap Operation.time?).Pairwise (· ≤ ·) →
      ∀ before now timeout after, ops = before ++ .sweep now timeout :: after →
        let pending := (course perform (empty : PendingHashes α) before).state
        let list := (course performOnList ([] : Arrivals α) before).state
        (pending.sweep now timeout).2 = list.countP (Arrivals.isOverdue now timeout) ∧
        ∀ a since, (pending.sweep now timeout).1.since? a = some since ↔
          pending.since? a = some since ∧ ¬ timeout < now - since) := by
  intro pending list
  obtain ⟨hsound, hlist, hanswers⟩ := sound_course ops
  refine ⟨hanswers, ?_, fun a since => ?_, ?_, ?_⟩
  · rw [← hlist]
    exact nodup_listing hsound.orderly
  · rw [← hlist]
    exact hsound.mem_arrivals
  · rw [← hlist]
    exact hsound.size_eq
  · intro htimes before now timeout after hops pending list
    obtain ⟨hsound, hlist, -⟩ := sound_course before
    obtain ⟨hsound', hlist', hcount⟩ := hsound.sweep now timeout
    have hordered : list.Pairwise fun e e' => e.2 ≤ e'.2 := by
      rw [hops, List.filterMap_append] at htimes
      exact List.pairwise_map.mp ((List.pairwise_append.mp htimes).1.sublist (times_sublist before))
    rw [hlist, Arrivals.sweep_of_pairwise hordered] at hlist' hcount
    refine ⟨hcount, fun a since => ?_⟩
    rw [← hsound'.mem_arrivals, hlist', List.mem_filter, ← hsound.mem_arrivals, hlist,
      Arrivals.isOverdue, Bool.not_eq_true', decide_eq_false_iff_not]

/-- An item that was removed and comes again is given up as long after it came again as any
other. -/
theorem refines_arrivals_of_item_added_again :
    let before : List (Operation Nat) :=
      [.add 7 0, .remove 7, .add 7 30, .add 8 40, .add 7 50, .sweep 90 60]
    let ops := before ++ .sweep 91 60 :: [.contains 7, .contains 8]
    (ops.filterMap Operation.time?).Pairwise (· ≤ ·) ∧
    (course perform empty ops).answers =
      [.told true, .told true, .told true, .told true, .told false, .counted 0, .counted 1,
        .told false, .told true] ∧
    ∀ a since,
      ((course perform empty before).state.sweep 91 60).1.since? a = some since ↔
        (course perform empty before).state.since? a = some since ∧ ¬ 60 < 91 - since := by
  intro before ops
  obtain ⟨hanswers, -, -, -, hsweep⟩ := refines_arrivals ops
  have htimes : (ops.filterMap Operation.time?).Pairwise (· ≤ ·) := by decide
  have hlist : (course performOnList [] ops).answers =
      [.told true, .told true, .told true, .told true, .told false, .counted 0, .counted 1,
        .told false, .told true] := by decide
  exact ⟨htimes, hanswers.trans hlist, (hsweep htimes before 91 60 _ rfl).2⟩

end PendingHashes

end PeerNet
