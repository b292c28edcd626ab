/-!
# Queues

Items that leave in the order in which they came. Those that came last are kept apart, the last of
them first, so that an item joins and leaves in a few steps however long the queue is. `toList` is
the queue as a list, oldest first; every operation has one lemma that says what it does to it.
-/

namespace PeerNet

/-- A queue. -/
structure Queue (α : Type) where
  /-- The oldest items, oldest first. -/
  front : List α
  /-- All others, oldest last. -/
  back : List α
  /-- The number of items. -/
  size : Nat
  size_eq : size = front.length + back.length := by simp

namespace Queue

variable {α : Type}

/-- The queue with nobody in it. -/
def empty : Queue α where
  front := []
  back := []
  size := 0
  size_eq := rfl

/-- A queue of the given items, the oldest first. -/
def ofList (items : List α) : Queue α where
  front := items
  back := []
  size := items.length

/-- All items, oldest first. -/
def toList (q : Queue α) : List α := q.front ++ q.back.reverse

/-- The queue with one more item at its end. -/
def push (q : Queue α) (a : α) : Queue α where
  front := q.front
  back := a :: q.back
  size := q.size + 1
  size_eq := by simp [q.size_eq, Nat.add_assoc]

/-- The oldest item and the queue without it, if there is one. -/
def pop? (q : Queue α) : Option (α × Queue α) :=
  match h : q.front with
  | a :: rest =>
    some (a, ⟨rest, q.back, q.size - 1, by
      rw [q.size_eq, h, List.length_cons, Nat.add_right_comm, Nat.add_sub_cancel]⟩)
  | [] =>
    match q.back.reverse with
    | a :: rest => some (a, ofList rest)
    | [] => none

/-- The items that pass a test, in the same order. -/
def filter (keep : α → Bool) (q : Queue α) : Queue α where
  front := q.front.filter keep
  back := q.back.filter keep
  size := (q.front.filter keep).length + (q.back.filter keep).length

@[simp]
theorem toList_empty : (empty : Queue α).toList = [] := rfl

@[simp]
theorem toList_ofList (items : List α) : (ofList items).toList = items := by simp [ofList, toList]

@[simp]
theorem toList_push (q : Queue α) (a : α) : (q.push a).toList = q.toList ++ [a] := by
  simp [push, toList]

@[simp]
theorem toList_filter (keep : α → Bool) (q : Queue α) :
    (q.filter keep).toList = q.toList.filter keep := by
  simp [filter, toList]

theorem size_eq_length (q : Queue α) : q.size = q.toList.length := by
  simp [toList, q.size_eq]

/-- An item leaves from the head of the list. -/
theorem toList_pop? (q : Queue α) :
    q.pop?.map (fun (a, rest) => a :: rest.toList) =
      if q.toList = [] then none else some q.toList := by
  unfold pop?
  split
  · next a rest h => simp [toList, h]
  · next h =>
    split
    · next a rest hr => simp [toList, h, hr, ofList]
    · next hr => simp [toList, h, hr]

end Queue

end PeerNet
