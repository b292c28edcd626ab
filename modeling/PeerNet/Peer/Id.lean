/-!
# Connection numbers

Every admitted connection gets a number of its own, which is never given out again.
-/

namespace PeerNet

/-- The number of a connection. -/
structure PeerId where
  /-- A number of 64 bits; there are taken to be enough of them for all connections of a node. -/
  number : Nat
  deriving DecidableEq, Repr

namespace PeerId

instance : Hashable PeerId := ⟨fun p => hash p.number⟩

instance : Inhabited PeerId := ⟨⟨0⟩⟩

/-- How a connection is named. -/
def text (p : PeerId) : String := s!"peer#{p.number}"

end PeerId

end PeerNet
