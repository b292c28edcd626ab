/-!
# Bytes

The byte strings that travel between peers, the little-endian numbers inside them, and byte
strings whose length is part of their type (hashes, script hashes, addresses).
-/

namespace PeerNet

/-- A run of bytes, in the order in which they travel. -/
abbrev Bytes := List UInt8

/-- The `width` low-order bytes of `n`, least significant first. -/
def toLE : (width n : Nat) → Bytes
  | 0, _ => []
  | width + 1, n => UInt8.ofNat n :: toLE width (n / 256)

/-- The number whose bytes, least significant first, are `bs`. -/
def ofLE : Bytes → Nat
  | [] => 0
  | b :: bs => b.toNat + 256 * ofLE bs

/-- A number is written in the width that is asked for. -/
@[simp] theorem length_toLE (width n : Nat) : (toLE width n).length = width := by
  induction width generalizing n with
  | zero => rfl
  | succ width ih => simp [toLE, ih]

/-- A byte string of exactly `n` bytes. -/
structure FixedBytes (n : Nat) where
  toList : Bytes
  length_toList : toList.length = n
  deriving DecidableEq

namespace FixedBytes

instance (n : Nat) : Hashable (FixedBytes n) := ⟨fun x => hash x.toList⟩

/-- All bytes zero. -/
def zero (n : Nat) : FixedBytes n := ⟨List.replicate n 0, by simp⟩

instance (n : Nat) : Inhabited (FixedBytes n) := ⟨zero n⟩

/-- The byte string `bs`, if it has the right length. -/
def ofList? (n : Nat) (bs : Bytes) : Option (FixedBytes n) :=
  if h : bs.length = n then some ⟨bs, h⟩ else none

end FixedBytes

/-- A content hash: the 32 bytes in the order in which they are computed and sent. -/
abbrev Hash := FixedBytes 32

/-- A script hash, 20 bytes. -/
abbrev ScriptHash := FixedBytes 20

/-- Lower-case hexadecimal digits of a byte string, two for each byte. -/
def hexText (bs : Bytes) : String :=
  String.ofList (bs.flatMap fun b => [Nat.digitChar (b.toNat / 16), Nat.digitChar (b.toNat % 16)])

/-- The value of a hexadecimal digit. -/
def hexDigit? (c : Char) : Option Nat :=
  if c.isDigit then some (c.toNat - '0'.toNat)
  else if 'a' ≤ c ∧ c ≤ 'f' then some (c.toNat - 'a'.toNat + 10)
  else if 'A' ≤ c ∧ c ≤ 'F' then some (c.toNat - 'A'.toNat + 10)
  else none

/-- Reads hexadecimal digits behind the bytes read already, which come last first. -/
def ofHexOnto : List Char → Bytes → Option Bytes
  | [], read => some read.reverse
  | [_], _ => none
  | hi :: lo :: rest, read =>
    match hexDigit? hi, hexDigit? lo with
    | some a, some b => ofHexOnto rest (UInt8.ofNat (16 * a + b) :: read)
    | _, _ => none

/-- The byte string written in hexadecimal, two digits for each byte. -/
def ofHex? (text : String) : Option Bytes := ofHexOnto text.toList []

end PeerNet
