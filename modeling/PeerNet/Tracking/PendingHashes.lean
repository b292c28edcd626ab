import PeerNet.Tracking.Queue
import Std.Data.HashMap

/-!
# Items awaited since some time

Items with the time at which they were first awaited, in order of arrival. Removing an item leaves
its place in the arrival queue behind; every place carries the number under which it was given, so
that an item awaited anew is not confused with its former self. Places left behind are discarded
when a sweep comes by or when they outnumber the live ones.
-/

namespace PeerNet

/-- Awaited items, oldest first. Times are in milliseconds. -/
structure PendingHashes (α : Type) [BEq α] [Hashable α] where
  /-- Items in order of arrival with their numbers; some may no longer be awaited. -/
  queue : Queue (α × Nat)
  /-- The awaited items, each with its number and its time. -/
  entries : Std.HashMap α (Nat × Nat)
  /-- The number that the next item gets.  It counts in 64 bits, and is taken never to overflow:
  that would take `2 ^ 64` items added. -/
  nextNumber : Nat

namespace PendingHashes

variable {α : Type} [BEq α] [Hashable α]

/-- Nothing is awaited. -/
def empty : PendingHashes α := ⟨.empty, ∅, 0⟩

/-- Whether an item is awaited. -/
def contains (p : PendingHashes α) (a : α) : Bool := p.entries.contains a

/-- The number of awaited items. -/
def size (p : PendingHashes α) : Nat := p.entries.size

/-- Awaits an item from `now` on, unless it is awaited already. -/
def add (p : PendingHashes α) (a : α) (now : Nat) : PendingHashes α × Bool :=
  if p.contains a then (p, false)
  else
    ({ queue := p.queue.push (a, p.nextNumber)
       entries := p.entries.insert a (p.nextNumber, now)
       nextNumber := p.nextNumber + 1 }, true)

/-- Whether a place in the queue belongs to an item that is still awaited. -/
def isLive (entries : Std.HashMap α (Nat × Nat)) (place : α × Nat) : Bool :=
  match entries[place.1]? with
  | some (number, _) => number == place.2
  | none => false

/-- How many places the queue may hold for a number of live items before it is cleaned up. -/
def queueBound (live : Nat) : Nat := 2 * live + 32

/-- Stops awaiting an item, and tells whether it was awaited. -/
def remove (p : PendingHashes α) (a : α) : PendingHashes α × Bool :=
  if p.contains a then
    let entries := p.entries.erase a
    let queue :=
      if p.queue.size > queueBound entries.size then p.queue.filter (isLive entries) else p.queue
    ({ p with queue, entries }, true)
  else (p, false)

/-- Discards places from the head of a queue: those left behind, and those of items awaited for
longer than `timeout`. The first live place that is still fresh ends the sweep. A clock that went
backwards makes an item as fresh as can be. -/
def sweepFrom (now timeout : Nat) (queue : List (α × Nat)) (entries : Std.HashMap α (Nat × Nat))
    (expired : Nat) : List (α × Nat) × Std.HashMap α (Nat × Nat) × Nat :=
  match queue with
  | [] => ([], entries, expired)
  | (a, place) :: rest =>
    match entries[a]? with
    | none => sweepFrom now timeout rest entries expired
    | some (number, since) =>
      if number != place then sweepFrom now timeout rest entries expired
      else if now - since ≤ timeout then (queue, entries, expired)
      else sweepFrom now timeout rest (entries.erase a) (expired + 1)

/-- Gives up the oldest items that were awaited for longer than `timeout`, and counts them. -/
def sweep (p : PendingHashes α) (now timeout : Nat) : PendingHashes α × Nat :=
  let (queue, entries, expired) := sweepFrom now timeout p.queue.toList p.entries 0
  ({ p with queue := .ofList queue, entries }, expired)

end PendingHashes

end PeerNet
