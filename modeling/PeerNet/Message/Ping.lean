import PeerNet.Wire.Decoder

/-!
# Pings

The sender's chain height with a nonce; the answer has the same shape and repeats the nonce.
-/

namespace PeerNet

/-- A sign of life, or the answer to one. -/
structure Ping where
  /-- The chain height of the sender. -/
  lastBlockIndex : UInt32
  timestamp : UInt32
  /-- Repeated unchanged in the answer. -/
  nonce : UInt32
  deriving DecidableEq, Repr

namespace Ping

/-- The fields in order. -/
def encode (p : Ping) : Bytes :=
  toLE 4 p.lastBlockIndex.toNat ++ toLE 4 p.timestamp.toNat ++ toLE 4 p.nonce.toNat

/-- Reads the fields in order. -/
def decoder : Decoder Ping := do
  return { lastBlockIndex := ← Decoder.u32, timestamp := ← Decoder.u32, nonce := ← Decoder.u32 }

end Ping

end PeerNet
