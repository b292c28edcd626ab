import PeerNet.Wire.CompactSize

/-!
# Filter messages

How a light client tells a node which transactions it wants to see: it loads a bloom filter and
may add single elements to it later.
-/

namespace PeerNet

/-- A bloom filter as it is sent. -/
structure FilterLoad where
  /-- The bits, the lowest of each byte first. -/
  filter : Bytes
  /-- The number of hash functions. -/
  k : UInt8
  tweak : UInt32
  deriving DecidableEq, Repr

namespace FilterLoad

/-- The largest filter, in bytes. -/
def maxFilterSize : Nat := 36000

/-- The most hash functions. -/
def maxHashFunctions : UInt8 := 50

/-- Bits, hash functions, tweak. -/
def encode (f : FilterLoad) : Bytes :=
  encodeSizedBytes f.filter ++ f.k :: toLE 4 f.tweak.toNat

/-- Reads the fields in order; the number of hash functions is checked before the tweak is read. -/
def decoder : Decoder FilterLoad := do
  let filter ← Decoder.sizedBytes maxFilterSize
  let k ← Decoder.byte
  if k > maxHashFunctions then Decoder.refuse .tooManyHashFunctions
  return { filter, k, tweak := ← Decoder.u32 }

end FilterLoad

/-- An element for a filter loaded before. -/
structure FilterAdd where
  data : Bytes
  deriving DecidableEq, Repr

namespace FilterAdd

/-- The largest element, in bytes. -/
def maxDataSize : Nat := 520

/-- The element behind its length. -/
def encode (f : FilterAdd) : Bytes := encodeSizedBytes f.data

/-- Reads an element. -/
def decoder : Decoder FilterAdd := do
  return ⟨← Decoder.sizedBytes maxDataSize⟩

end FilterAdd

end PeerNet
