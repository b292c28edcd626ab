import Mathlib
import PeerNet.Tracking.PendingHashes

/-!
# Since when an item is awaited

The arrival queue decides in which order items are given up, and how soon; what is awaited, and
since when, is in the table alone (`PendingHashes.since?`).  An item is entered with the time at
which it came and keeps that time for as long as it is awaited.  It leaves by being removed, or by a
sweep, and a sweep takes it only if it was awaited for longer than the timeout.
-/

namespace PeerNet

namespace PendingHashes

variable {α : Type} [BEq α] [Hashable α]

/-- The time at which an item was first awaited, if it is awaited. -/
def since? (p : PendingHashes α) (a : α) : Option Nat := p.entries[a]?.map Prod.snd

/-- An item that is not awaited yet can be added. -/
lemma add_snd (p : PendingHashes α) (a : α) (now : Nat) :
    (p.add a now).2 = !p.contains a := by
  rw [add]
  split
  · next hmem => rw [hmem, Bool.not_true]
  · next hmem => rw [Bool.eq_false_of_not_eq_true hmem, Bool.not_false]

@[simp]
lemma since?_empty (a : α) : (empty : PendingHashes α).since? a = none := by
  rw [since?, empty, Std.HashMap.getElem?_empty, Option.map_none]

variable [LawfulBEq α] [LawfulHashable α]

/-- What is awaited is awaited since some time. -/
lemma contains_eq_isSome (p : PendingHashes α) (a : α) : p.contains a = (p.since? a).isSome := by
  rw [contains, since?, Option.isSome_map, Std.HashMap.isSome_getElem?_eq_contains]

/-- What is awaited since no time is not awaited. -/
lemma since?_eq_none_iff {p : PendingHashes α} {a : α} :
    p.since? a = none ↔ p.contains a = false := by
  rw [contains_eq_isSome, Option.isSome_eq_false_iff, Option.isNone_iff_eq_none]

/-- An item that is added is awaited from then on, or from earlier on. -/
lemma since?_add_self (p : PendingHashes α) (a : α) (now : Nat) :
    (p.add a now).1.since? a = (p.since? a).or (some now) := by
  rw [add]
  split
  · next hmem =>
    rw [contains_eq_isSome] at hmem
    rw [Option.or_of_isSome hmem]
  · next hmem =>
    have hnone : p.since? a = none := since?_eq_none_iff.mpr (Bool.eq_false_of_not_eq_true hmem)
    rw [hnone, Option.none_or, since?, Std.HashMap.getElem?_insert_self, Option.map_some]

/-- Adding an item changes nothing about the others. -/
lemma since?_add_of_ne (p : PendingHashes α) {a x : α} (hne : a ≠ x) (now : Nat) :
    (p.add a now).1.since? x = p.since? x := by
  rw [add]
  split
  · rfl
  · rw [since?, since?, Std.HashMap.getElem?_insert, if_neg (by simpa using hne)]

/-- What is awaited after an addition is what was awaited before, and the item. -/
lemma contains_add (p : PendingHashes α) (a x : α) (now : Nat) :
    (p.add a now).1.contains x = (p.contains x || a == x) := by
  rw [contains_eq_isSome, contains_eq_isSome]
  by_cases hx : a = x
  · subst hx
    rw [since?_add_self, beq_self_eq_true, Bool.or_true, Option.isSome_or, Option.isSome_some,
      Bool.or_true]
  · rw [since?_add_of_ne p hx, beq_eq_false_iff_ne.mpr hx, Bool.or_false]

/-- What is removed is awaited no more. -/
lemma since?_remove_self (p : PendingHashes α) (a : α) : (p.remove a).1.since? a = none := by
  rw [remove]
  split
  · rw [since?, Std.HashMap.getElem?_erase_self, Option.map_none]
  · next hmem => exact since?_eq_none_iff.mpr (Bool.eq_false_of_not_eq_true hmem)

/-- Removing an item changes nothing about the others. -/
lemma since?_remove_of_ne (p : PendingHashes α) {a x : α} (hne : a ≠ x) :
    (p.remove a).1.since? x = p.since? x := by
  rw [remove]
  split
  · rw [since?, since?, Std.HashMap.getElem?_erase, if_neg (by simpa using hne)]
  · rfl

/-- What becomes of the entry of an item in the course of a sweep. -/
lemma getElem?_sweepFrom (now timeout : Nat) (queue : List (α × Nat))
    (entries : Std.HashMap α (Nat × Nat)) (expired : Nat) (x : α) :
    (sweepFrom now timeout queue entries expired).2.1[x]? = entries[x]? ∨
      (sweepFrom now timeout queue entries expired).2.1[x]? = none ∧
        ∃ number since, entries[x]? = some (number, since) ∧ timeout < now - since := by
  induction queue generalizing entries expired with
  | nil => exact .inl rfl
  | cons head rest ih =>
    obtain ⟨a, place⟩ := head
    rw [sweepFrom]
    split
    · exact ih entries expired
    · next number since hentry =>
      split_ifs with hstale hfresh
      · exact ih entries expired
      · exact .inl rfl
      · by_cases hx : a = x
        · subst hx
          right
          refine ⟨?_, number, since, hentry, by omega⟩
          -- Once it is gone it stays away for the rest of the sweep.
          have hgone : (entries.erase a)[a]? = none := Std.HashMap.getElem?_erase_self
          rcases ih (entries.erase a) (expired + 1) with hsame | ⟨hnone, -⟩
          · rw [hsame, hgone]
          · exact hnone
        · have hother : (entries.erase a)[x]? = entries[x]? := by
            rw [Std.HashMap.getElem?_erase, if_neg (by simpa using hx)]
          have hrest := ih (entries.erase a) (expired + 1)
          rw [hother] at hrest
          exact hrest

/-- A sweep gives up an item only if it was awaited for longer than the timeout. -/
lemma since?_sweep (p : PendingHashes α) (now timeout : Nat) (x : α) :
    (p.sweep now timeout).1.since? x = p.since? x ∨
      (p.sweep now timeout).1.since? x = none ∧
        ∃ since, p.since? x = some since ∧ timeout < now - since := by
  rcases getElem?_sweepFrom now timeout p.queue.toList p.entries 0 x with
    hsame | ⟨hnone, number, since, hentry, hlate⟩
  · left
    exact congrArg (Option.map Prod.snd) hsame
  · right
    refine ⟨congrArg (Option.map Prod.snd) hnone, since, ?_, hlate⟩
    exact congrArg (Option.map Prod.snd) hentry

end PendingHashes

end PeerNet
