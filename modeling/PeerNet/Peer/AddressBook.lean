import PeerNet.Message.AddressRecord

/-!
# The address book

Nodes that the node has heard of, by endpoint. A known endpoint takes over the newer record and
time, also when the book is full; a new endpoint finds a place only while there is one. Nothing is
ever dropped.
-/

namespace PeerNet

/-- A record with the time at which it was last seen. -/
structure AddressEntry where
  record : AddressRecord
  /-- In milliseconds. -/
  lastSeen : Nat
  deriving DecidableEq

/-- Known nodes, in the order in which they were first seen. -/
structure AddressBook where
  entries : List (Endpoint × AddressEntry)
  maxSize : Nat

namespace AddressBook

/-- An empty book. -/
def ofSize (maxSize : Nat) : AddressBook := ⟨[], maxSize⟩

/-- The number of known endpoints. -/
def size (b : AddressBook) : Nat := b.entries.length

/-- The endpoint under which a record is filed, if it names one that can be reached. -/
def key? (record : AddressRecord) : Option Endpoint :=
  let e := record.endpoint
  if e.port = 0 ∨ e.ip.isUnspecified then none else some e.normal

/-- Files a record, and tells whether its endpoint is new. -/
def add (b : AddressBook) (record : AddressRecord) (now : Nat) : AddressBook × Bool :=
  match key? record with
  | none => (b, false)
  | some key =>
    if b.entries.any (·.1 == key) then
      ({ b with entries := b.entries.map fun (k, e) =>
          if k = key then (k, ⟨record, now⟩) else (k, e) }, false)
    else if b.size ≥ b.maxSize then (b, false)
    else ({ b with entries := b.entries ++ [(key, ⟨record, now⟩)] }, true)

/-- The known endpoints. -/
def endpoints (b : AddressBook) : List Endpoint := b.entries.map Prod.fst

/-- All records, the one seen last first. -/
def addresses (b : AddressBook) : List AddressRecord :=
  ((b.entries.map Prod.snd).mergeSort fun a b => b.lastSeen ≤ a.lastSeen).map AddressEntry.record

end AddressBook

end PeerNet
