import PeerNet.Bytes

/-!
# MurmurHash3

The 32-bit hash behind bloom filters. Four bytes at a time are scrambled and mixed into the hash,
then up to three left over, then the length; the finish spreads every bit over the whole word.
-/

namespace PeerNet.Murmur

/-- Rotation to the left by `n` bits, for `0 < n < 32`. -/
def rotateLeft (x n : UInt32) : UInt32 := (x <<< n) ||| (x >>> (32 - n))

/-- Scrambles a word before it is mixed in. -/
def scramble (k : UInt32) : UInt32 := rotateLeft (k * 0xcc9e2d51) 15 * 0x1b873593

/-- Mixes a scrambled word into the hash. -/
def mix (hash k : UInt32) : UInt32 := rotateLeft (hash ^^^ scramble k) 13 * 5 + 0xe6546b64

/-- Mixes in all bytes; the last one to three are not followed by a rotation. -/
def absorb (hash : UInt32) : Bytes → UInt32
  | b₀ :: b₁ :: b₂ :: b₃ :: rest => absorb (mix hash (UInt32.ofNat (ofLE [b₀, b₁, b₂, b₃]))) rest
  | [] => hash
  | tail => hash ^^^ scramble (UInt32.ofNat (ofLE tail))

/-- Folds the high half of a word into its low half, by `n` bits. -/
def fold (x n : UInt32) : UInt32 := x ^^^ (x >>> n)

/-- Spreads every bit of the hash over the whole word. -/
def finish (hash : UInt32) : UInt32 :=
  fold (fold (fold hash 16 * 0x85ebca6b) 13 * 0xc2b2ae35) 16

/-- The hash of a byte string, started from a seed. -/
def hash (data : Bytes) (seed : UInt32) : UInt32 :=
  finish (absorb seed data ^^^ UInt32.ofNat data.length)

end PeerNet.Murmur
