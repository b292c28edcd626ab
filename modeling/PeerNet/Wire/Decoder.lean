import PeerNet.Bytes
import PeerNet.Wire.DecodeError

/-!
# Decoders

A decoder reads a value off the front of a byte string and hands back the bytes it did not use.
The primitives here read raw bytes, fixed-width little-endian numbers, and a given number of
items; a decoder that must use up its whole input is run by `Decoder.decodeAll`.
-/

namespace PeerNet

/-- Reads an `α` off the front of a byte string, leaving the rest. -/
abbrev Decoder (α : Type) := StateT Bytes (Except DecodeError) α

namespace Decoder

variable {α : Type}

/-- The next `n` bytes. -/
def take (n : Nat) : Decoder Bytes := fun bs =>
  let taken := bs.take n
  -- Measuring what was taken, not what there is, keeps a read as cheap as it is long.
  if taken.length = n then .ok (taken, bs.drop n) else .error .unexpectedEnd

/-- The next `n` bytes, with their number in the type. -/
def fixed (n : Nat) : Decoder (FixedBytes n) := fun bs =>
  if h : (bs.take n).length = n then .ok (⟨bs.take n, h⟩, bs.drop n) else .error .unexpectedEnd

/-- The next byte. -/
def byte : Decoder UInt8 := fun bs =>
  match bs with
  | [] => .error .unexpectedEnd
  | b :: rest => .ok (b, rest)

/-- The next `width` bytes as a little-endian number. -/
def littleEndian (width : Nat) : Decoder Nat := do
  return ofLE (← take width)

/-- A 16-bit number. -/
def u16 : Decoder UInt16 := do
  return UInt16.ofNat (← littleEndian 2)

/-- A 32-bit number. -/
def u32 : Decoder UInt32 := do
  return UInt32.ofNat (← littleEndian 4)

/-- A 64-bit number. -/
def u64 : Decoder UInt64 := do
  return UInt64.ofNat (← littleEndian 8)

/-- A signed 16-bit number, in two's complement. -/
def i16 : Decoder Int16 := do
  return (← u16).toInt16

/-- Refuses a value that is complete but not allowed. -/
def refuse (cause : Malformed) : Decoder α := fun _ => .error (.malformed cause)

/-- The value itself, or a refusal where there is none. -/
def orRefuse (value : Option α) (cause : Malformed) : Decoder α :=
  match value with
  | some a => pure a
  | none => refuse cause

/-- Reads `n` further items behind those already read, which come last first. -/
def itemsOnto (item : Decoder α) : Nat → List α → Bytes → Except DecodeError (List α × Bytes)
  | 0, read, bs => .ok (read.reverse, bs)
  | n + 1, read, bs =>
    match item bs with
    | .ok (a, rest) => itemsOnto item n (a :: read) rest
    | .error e => .error e

/-- Exactly `n` items, one after the other. -/
def items (item : Decoder α) (n : Nat) : Decoder (List α) := itemsOnto item n []

/-- Runs a decoder on a byte string that it has to use up. -/
def decodeAll (d : Decoder α) (bs : Bytes) : Except DecodeError α :=
  match d bs with
  | .ok (a, []) => .ok a
  | .ok (_, _ :: _) => .error (.malformed .bytesLeftOver)
  | .error e => .error e

end Decoder

end PeerNet
