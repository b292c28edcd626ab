import PeerNet.Frame.Error
import PeerNet.Message.Basic

/-!
# Writing messages to a stream

A message is written as one frame. A stream that breaks takes the first bytes of the frame and
refuses the rest, so the bytes taken are always a beginning of the frames written.
-/

namespace PeerNet

/-- The sending side of a stream that takes a limited number of bytes, if limited at all. -/
structure Outlet where
  /-- What the stream has taken, piece after piece, last first. -/
  pieces : List Bytes
  /-- How many bytes it will still take. -/
  room : Option Nat
  deriving DecidableEq, Repr

namespace Outlet

/-- A stream that has taken nothing yet. -/
def ofRoom (room : Option Nat) : Outlet := ⟨[], room⟩

/-- All bytes taken, in order. -/
def taken (o : Outlet) : Bytes := o.pieces.reverse.flatten

/-- Offers bytes to the stream; it breaks if they are more than it will take. -/
def writeBytes (o : Outlet) (bs : Bytes) : Outlet × Except StreamError Unit :=
  match o.room with
  | none => (⟨bs :: o.pieces, none⟩, .ok ())
  | some room =>
    if bs.length ≤ room then (⟨bs :: o.pieces, some (room - bs.length)⟩, .ok ())
    else (⟨bs.take room :: o.pieces, some 0⟩, .error .brokenPipe)

/-- Writes one message. -/
def write (o : Outlet) (m : Message) : Outlet × Except TransportError Unit :=
  let (o, result) := o.writeBytes m.encode
  (o, result.mapError TransportError.stream)

end Outlet

end PeerNet
