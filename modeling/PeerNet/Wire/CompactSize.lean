import PeerNet.Wire.Decoder

/-!
# CompactSize lengths

Lengths and counts take one byte up to `0xFC`; above that a marker byte says whether two, four or
eight bytes follow, least significant first. Only the shortest form of a number is accepted, so
every number has exactly one written form.

On top of it stand the fields that carry their own length: byte strings, text, and lists. Each has
a cap, and a length above the cap is refused before anything behind it is read.
-/

namespace PeerNet

namespace CompactSize

/-- The shortest form of `n`. Numbers from `2 ^ 64` on have none; their low 64 bits are written. -/
def encode (n : Nat) : Bytes :=
  if n ≤ 0xFC then [UInt8.ofNat n]
  else if n ≤ 0xFFFF then 0xFD :: toLE 2 n
  else if n ≤ 0xFFFF_FFFF then 0xFE :: toLE 4 n
  else 0xFF :: toLE 8 n

/-- How many bytes the shortest form of `n` takes. -/
def encodedSize (n : Nat) : Nat :=
  if n ≤ 0xFC then 1
  else if n ≤ 0xFFFF then 3
  else if n ≤ 0xFFFF_FFFF then 5
  else 9

/-- How many bytes follow a first byte. -/
def extension (marker : UInt8) : Nat :=
  if marker = 0xFD then 2 else if marker = 0xFE then 4 else if marker = 0xFF then 8 else 0

/-- The least number whose shortest form has `width` bytes behind the marker. -/
def leastOfWidth (width : Nat) : Nat :=
  if width = 2 then 0xFD else if width = 4 then 0x1_0000 else if width = 8 then 0x1_0000_0000 else 0

/-- Reads a length, refusing a form longer than needed. -/
def decoder : Decoder Nat := do
  let marker ← Decoder.byte
  let width := extension marker
  if width = 0 then
    return marker.toNat
  let n ← Decoder.littleEndian width
  if n < leastOfWidth width then throw .nonMinimalLength
  return n

end CompactSize

namespace Decoder

variable {α : Type}

/-- A length or count of at most `maximum`. -/
def lengthUpTo (maximum : Nat) : Decoder Nat := do
  let n ← CompactSize.decoder
  if n > maximum then throw (.oversized n maximum)
  return n

/-- A byte string of at most `maximum` bytes, behind its length. -/
def sizedBytes (maximum : Nat) : Decoder Bytes := do
  take (← lengthUpTo maximum)

/-- Text of at most `maximum` bytes in strict UTF-8, behind its length. -/
def sizedText (maximum : Nat) : Decoder String := do
  let bs ← sizedBytes maximum
  orRefuse (String.fromUTF8? ⟨bs.toArray⟩) .textNotUtf8

/-- A list of at most `maximum` items, behind its count. -/
def sizedList (item : Decoder α) (maximum : Nat) : Decoder (List α) := do
  items item (← lengthUpTo maximum)

end Decoder

/-- A byte string behind its length. -/
def encodeSizedBytes (bs : Bytes) : Bytes := CompactSize.encode bs.length ++ bs

/-- The UTF-8 bytes of a text. -/
def utf8Bytes (text : String) : Bytes := text.toUTF8.data.toList

/-- A text behind the number of its bytes. -/
def encodeSizedText (text : String) : Bytes := encodeSizedBytes (utf8Bytes text)

/-- A list behind its count. -/
def encodeSizedList {α : Type} (item : α → Bytes) (xs : List α) : Bytes :=
  CompactSize.encode xs.length ++ xs.flatMap item

end PeerNet
