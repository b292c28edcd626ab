import PeerNet.Tracking.Queue
import Std.Data.HashSet

/-!
# Sets that forget their oldest items

A set of at most `capacity` items. Adding one to a full set evicts the item that was added first.
The items are kept twice: in the order in which they came, for eviction, and as a set, for
look-up.
-/

namespace PeerNet

/-- A set that evicts in the order of insertion. -/
structure FifoSet (α : Type) [BEq α] [Hashable α] where
  capacity : Nat
  /-- The items, in the order in which they came. -/
  order : Queue α
  members : Std.HashSet α

namespace FifoSet

variable {α : Type} [BEq α] [Hashable α]

/-- An empty set for `capacity` items, but for one at least. -/
def ofCapacity (capacity : Nat) : FifoSet α := ⟨max capacity 1, .empty, ∅⟩

/-- Whether an item is in the set. -/
def contains (s : FifoSet α) (a : α) : Bool := s.members.contains a

/-- The number of items. -/
def size (s : FifoSet α) : Nat := s.order.size

/-- The set without its oldest item, if it is full. -/
def makeRoom (s : FifoSet α) : FifoSet α :=
  if s.order.size < s.capacity then s
  else
    match s.order.pop? with
    | some (oldest, rest) => { s with order := rest, members := s.members.erase oldest }
    | none => s

/-- The set with an item, evicting if full, and whether the item is new. -/
def add (s : FifoSet α) (a : α) : FifoSet α × Bool :=
  if s.contains a then (s, false)
  else
    let s := s.makeRoom
    ({ s with order := s.order.push a, members := s.members.insert a }, true)

end FifoSet

end PeerNet
