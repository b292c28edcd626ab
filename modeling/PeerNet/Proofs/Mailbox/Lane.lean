import Mathlib
import PeerNet.Mailbox

/-!
# The two lanes of a mailbox

A push has four outcomes (`Mailbox.Pushes`), of which one changes the mailbox: the item is put at
the end of its lane.  A delivery takes the head of a lane, of the low one only when the high one is
empty.

Three facts about what the lanes hold survive both: every item is in the lane for its priority, no
lane holds more messages than it has room for, and of the requests that need not be repeated no two
are alike (`Mailbox.Orderly`).
-/

namespace PeerNet

namespace Mailbox

/-- The lane of a priority; `true` is the lane that is emptied first. -/
def contents (b : Mailbox) (priority : Bool) : List MailboxItem :=
  bif priority then b.high else b.low

variable {b : Mailbox} {item : MailboxItem}

/-- The lane of an item is that of its priority. -/
lemma lane_eq_contents (b : Mailbox) (item : MailboxItem) :
    b.lane item = b.contents item.isHighPriority := by
  rw [lane, contents]
  cases item.isHighPriority <;> rfl

/-- An item that is put into the mailbox stands at the end of its lane. -/
lemma contents_append (b : Mailbox) (item : MailboxItem) (p : Bool) :
    (b.append item).contents p =
      b.contents p ++ if item.isHighPriority = p then [item] else [] := by
  rw [append]
  cases item.isHighPriority <;> cases p <;> simp [contents]

lemma queued_perm_contents (b : Mailbox) : b.queued = b.contents true ++ b.contents false := rfl

/-- An item finds room if it is the timer or its lane is not full. -/
lemma hasRoom_iff : b.hasRoom item = true ↔
    item = .timer ∨ (b.contents item.isHighPriority).length < b.laneCapacity := by
  rw [hasRoom, lane_eq_contents]
  simp

/-! ## A push -/

/-- The outcomes of a push. -/
inductive Pushes (b : Mailbox) (item : MailboxItem) : Mailbox → PushResult → Prop
  | closed (hclosed : b.closed = true) : Pushes b item b .closed
  | dropped (hopen : b.closed = false) (hredundant : item.isRedundant b.queued = true) :
    Pushes b item b .dropped
  | queued {b' : Mailbox} (hopen : b.closed = false) (hnew : item.isRedundant b.queued = false)
    (hroom : b.hasRoom item = true) (hnext : b' = b.append item) : Pushes b item b' .queued
  | blocked (hopen : b.closed = false) (hmessage : item ≠ .timer)
    (hfull : b.laneCapacity ≤ (b.contents item.isHighPriority).length) :
    Pushes b item b .blocked

/-- A push finds the mailbox closed, is redundant, finds no room, or is queued. -/
lemma pushes_push (b : Mailbox) (item : MailboxItem) :
    b.Pushes item (b.push item).1 (b.push item).2 := by
  rw [push]
  split_ifs with hclosed hredundant hroom
  · exact .closed hclosed
  · exact .dropped (Bool.eq_false_iff.mpr hclosed) hredundant
  · exact .queued (Bool.eq_false_iff.mpr hclosed) (Bool.eq_false_iff.mpr hredundant) hroom rfl
  · rw [hasRoom_iff, not_or] at hroom
    exact .blocked (Bool.eq_false_iff.mpr hclosed) hroom.1 (Nat.not_lt.mp hroom.2)

/-- A timer finds room in every open mailbox. -/
lemma push_timer (hopen : b.closed = false) : b.push .timer = (b.append .timer, .queued) := by
  rw [push, hopen]
  rfl

/-- A closed mailbox takes nothing. -/
lemma push_of_closed (hclosed : b.closed = true) (item : MailboxItem) :
    b.push item = (b, .closed) := by
  rw [push, if_pos hclosed]

/-- A push leaves the size of the lanes and the end of the mailbox alone. -/
lemma push_fst_spec (b : Mailbox) (item : MailboxItem) :
    (b.push item).1.laneCapacity = b.laneCapacity ∧ (b.push item).1.closed = b.closed := by
  have hpush := pushes_push b item
  generalize b.push item = r at hpush ⊢
  obtain ⟨b', result⟩ := r
  cases hpush with
  | queued _ _ _ hnext =>
    rw [hnext, append]
    split <;> exact ⟨rfl, rfl⟩
  | _ => exact ⟨rfl, rfl⟩

/-- A push takes nothing out of a lane. -/
lemma contents_push (b : Mailbox) (item : MailboxItem) (p : Bool) :
    (b.push item).1.contents p = b.contents p ++
      if (b.push item).2 = .queued ∧ item.isHighPriority = p then [item] else [] := by
  have hpush := pushes_push b item
  generalize b.push item = r at hpush ⊢
  obtain ⟨b', result⟩ := r
  cases hpush with
  | queued _ _ _ hnext =>
    rw [hnext, contents_append]
    simp
  | _ => simp

/-! ## A delivery -/

/-- What a delivery takes is the head of its lane, and the other lane stays as it is; a low lane is
only used when the high one is empty. -/
lemma receive_spec {b' : Mailbox} (h : b.receive = (b', some item)) :
    ∃ p, b.contents p = item :: b'.contents p ∧ b.contents (!p) = b'.contents (!p) ∧
      (p = false → b.high = []) ∧ b'.laneCapacity = b.laneCapacity ∧ b'.closed = b.closed := by
  rw [receive] at h
  split at h
  · next first rest hhigh =>
    cases h
    exact ⟨true, hhigh, rfl, fun h => absurd h (by decide), rfl, rfl⟩
  · next first rest hhigh hlow =>
    cases h
    exact ⟨false, hlow, rfl, fun _ => hhigh, rfl, rfl⟩
  · cases h

/-- A delivery takes the first item there is, of the high lane if that holds any. -/
lemma snd_receive (b : Mailbox) : b.receive.2 = b.queued.head? := by
  rw [receive]
  split
  · next hhigh =>
    rw [queued, hhigh]
    rfl
  · next hhigh hlow =>
    rw [queued, hhigh, hlow]
    rfl
  · next hhigh hlow =>
    rw [queued, hhigh, hlow]
    rfl

/-- A delivery leaves all but the first item. -/
lemma queued_receive (b : Mailbox) : b.receive.1.queued = b.queued.tail := by
  rw [receive]
  split
  · next hhigh =>
    rw [queued, queued, hhigh]
    rfl
  · next hhigh hlow =>
    rw [queued, queued, hhigh, hlow]
    rfl
  · next hhigh hlow =>
    rw [queued, hhigh, hlow]
    rfl

/-- An item that is delivered stood before all others. -/
lemma queued_of_receive {b' : Mailbox} (h : b.receive = (b', some item)) :
    b.queued = item :: b'.queued := by
  have hhead := b.snd_receive
  have htail := b.queued_receive
  rw [h] at hhead htail
  rw [htail]
  exact List.eq_cons_of_mem_head? hhead.symm

/-- Nothing is delivered only if nothing is there. -/
lemma queued_of_receive_none {b' : Mailbox} (h : b.receive = (b', none)) : b.queued = [] := by
  have hhead := b.snd_receive
  rw [h] at hhead
  exact List.head?_eq_none_iff.mp hhead.symm

/-- Where nothing is delivered nothing changes. -/
lemma eq_of_receive_none {b' : Mailbox} (h : b.receive = (b', none)) : b' = b := by
  rw [receive] at h
  split at h
  all_goals cases h
  rfl

/-- A delivery leaves the size of the lanes and the end of the mailbox alone. -/
lemma receive_fst_spec (b : Mailbox) :
    b.receive.1.laneCapacity = b.laneCapacity ∧ b.receive.1.closed = b.closed := by
  rw [receive]
  split <;> exact ⟨rfl, rfl⟩

/-! ## Order in the lanes -/

/-- What the lanes of a mailbox hold. -/
structure Orderly (b : Mailbox) : Prop where
  /-- Every item is in the lane for its priority. -/
  sorted : ∀ p, ∀ item ∈ b.contents p, item.isHighPriority = p
  /-- A lane has no more messages than it has room for. -/
  bounded : ∀ p, (b.contents p).countP (· != .timer) ≤ b.laneCapacity
  /-- One request is enough of those that need not be repeated. -/
  single : ∀ c ∈ MailboxItem.deduplicatedCommands,
    b.queued.countP (·.command? == some c) ≤ 1

/-- A new mailbox is in order. -/
lemma orderly_ofCapacity (capacity : Nat) : (ofCapacity capacity).Orderly where
  sorted p item hitem := by cases p <;> exact absurd hitem List.not_mem_nil
  bounded p := by cases p <;> exact Nat.zero_le _
  single c _ := Nat.zero_le 1

/-- The items of a kind in both lanes. -/
lemma countP_queued (b : Mailbox) (q : MailboxItem → Bool) :
    b.queued.countP q = (b.contents true).countP q + (b.contents false).countP q := by
  rw [queued_perm_contents, List.countP_append]

/-- An item put into the mailbox is one more of its kind. -/
lemma countP_queued_append (b : Mailbox) (item : MailboxItem) (q : MailboxItem → Bool) :
    (b.append item).queued.countP q = b.queued.countP q + if q item then 1 else 0 := by
  rw [countP_queued, countP_queued, contents_append, contents_append]
  cases item.isHighPriority <;> cases hq : q item <;> simp [hq] <;> omega

/-- Of a request that is not redundant none is waiting. -/
lemma countP_eq_zero_of_not_isRedundant {items : List MailboxItem} {c : Command}
    (hnew : item.isRedundant items = false) (hc : c ∈ MailboxItem.deduplicatedCommands)
    (hcommand : item.command? = some c) : items.countP (·.command? == some c) = 0 := by
  rw [MailboxItem.isRedundant, hcommand, Option.any_some, Bool.and_eq_false_iff] at hnew
  rcases hnew with hnew | hnew
  · exact absurd (List.contains_iff_mem.mpr hc) (Bool.eq_false_iff.mp hnew)
  · rw [List.countP_eq_zero]
    exact fun other hother => by simpa using List.any_eq_false.mp hnew other hother

/-- A push keeps the lanes in order. -/
lemma Orderly.push (h : b.Orderly) (item : MailboxItem) : (b.push item).1.Orderly := by
  have hpush := pushes_push b item
  generalize b.push item = r at hpush ⊢
  obtain ⟨b', result⟩ := r
  cases hpush with
  | queued hopen hnew hroom hnext =>
    rw [hnext]
    refine ⟨fun p other hother => ?_, fun p => ?_, fun c hc => ?_⟩
    · rw [contents_append, List.mem_append] at hother
      rcases hother with hother | hother
      · exact h.sorted p other hother
      · split_ifs at hother with hp
        · rw [List.mem_singleton.mp hother, hp]
        · exact absurd hother List.not_mem_nil
    · have hcapacity : (b.append item).laneCapacity = b.laneCapacity := by
        rw [append]
        split <;> rfl
      rw [hcapacity, contents_append, List.countP_append]
      have hbound := h.bounded p
      split_ifs with hp
      · rcases hasRoom_iff.mp hroom with rfl | hroom
        · exact hbound
        · have hlength : (b.contents p).countP (· != .timer) ≤ (b.contents p).length :=
            List.countP_le_length
          have hone : [item].countP (· != .timer) ≤ 1 := List.countP_le_length
          rw [hp] at hroom
          omega
      · exact hbound
    · rw [countP_queued_append]
      split_ifs with hcommand
      · rw [countP_eq_zero_of_not_isRedundant hnew hc (by simpa using hcommand)]
      · exact h.single c hc
  | _ => exact h

/-- What is taken out of a lane stood at its head, so what was taken before, and after it what is
left, stay the same. -/
lemma Orderly.filter_append_contents (h : b.Orderly) (taken : List MailboxItem) (p : Bool) :
    (taken ++ b.receive.2.toList).filter (·.isHighPriority == p) ++ b.receive.1.contents p =
      taken.filter (·.isHighPriority == p) ++ b.contents p := by
  rcases hreceive : b.receive with ⟨b', _ | item⟩
  · rw [eq_of_receive_none hreceive, Option.toList_none, List.append_nil]
  · obtain ⟨q, htaken, hother, -⟩ := receive_spec hreceive
    have hitem : item.isHighPriority = q := by
      refine h.sorted q item ?_
      rw [htaken]
      exact List.mem_cons_self
    rw [Option.toList_some, List.filter_append, List.append_assoc, List.filter_singleton, hitem]
    rcases Bool.eq_or_eq_not p q with rfl | rfl
    · rw [htaken]
      simp
    · rw [hother]
      simp

/-- Taking an item out keeps the lanes in order. -/
lemma Orderly.receive (h : b.Orderly) {b' : Mailbox} (hreceive : b.receive = (b', some item)) :
    b'.Orderly := by
  obtain ⟨p, htaken, hother, -, hcapacity, -⟩ := receive_spec hreceive
  -- Each lane lost at most its head.
  have hsuffix : ∀ q, b'.contents q <:+ b.contents q := by
    intro q
    rcases Bool.eq_or_eq_not q p with rfl | rfl
    · rw [htaken]
      exact List.suffix_cons _ _
    · rw [hother]
  refine ⟨fun q other hmem => h.sorted q other ((hsuffix q).subset hmem), fun q => ?_,
    fun c hc => ?_⟩
  · rw [hcapacity]
    exact ((hsuffix q).sublist.countP_le).trans (h.bounded q)
  · have htrue := (hsuffix true).sublist.countP_le (p := (·.command? == some c))
    have hfalse := (hsuffix false).sublist.countP_le (p := (·.command? == some c))
    have hsingle := h.single c hc
    rw [countP_queued] at hsingle ⊢
    omega

/-- Whether something is delivered or not, what the lanes hold is in order. -/
lemma Orderly.fst_receive (h : b.Orderly) : b.receive.1.Orderly := by
  rcases hreceive : b.receive with ⟨b', _ | item⟩
  · rwa [eq_of_receive_none hreceive]
  · exact h.receive hreceive

end Mailbox

end PeerNet
