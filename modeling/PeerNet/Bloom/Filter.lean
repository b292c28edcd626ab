import PeerNet.Bloom.Murmur
import PeerNet.Message.Block
import PeerNet.Message.Filter

/-!
# Bloom filters

A light client's filter: `k` hash functions each pick one bit of a bit array for an element. Adding
an element sets its bits; an element is accepted if all its bits are set. So every element added is
accepted, and some others may be. A filter without bits accepts nothing.
-/

namespace PeerNet

/-- A bit array with the hash functions that index it. -/
structure BloomFilter where
  /-- The bits, the lowest of each byte first. -/
  bits : Bytes
  /-- The number of hash functions. -/
  k : UInt8
  tweak : UInt32
  deriving DecidableEq, Repr

namespace BloomFilter

/-- The filter that a peer loads. -/
def ofLoad (f : FilterLoad) : BloomFilter := ⟨f.filter, f.k, f.tweak⟩

/-- The filter of `m` bits, rounded up to whole bytes, with none of them set. -/
def empty (m : Nat) (k : UInt8) (tweak : UInt32) : BloomFilter :=
  ⟨List.replicate ((m + 7) / 8) 0, k, tweak⟩

/-- The number of bits. -/
def size (f : BloomFilter) : Nat := 8 * f.bits.length

/-- The seed of the `i`-th hash function. -/
def seed (tweak : UInt32) (i : Nat) : UInt32 := UInt32.ofNat i * 0xFBA4C795 + tweak

/-- The bit that the `i`-th hash function picks for an element. -/
def bitIndex (f : BloomFilter) (element : Bytes) (i : Nat) : Nat :=
  (Murmur.hash element (seed f.tweak i)).toNat % f.size

/-- The byte in which only bit `i % 8` is set. -/
def bitMask (i : Nat) : UInt8 := (1 : UInt8) <<< UInt8.ofNat (i % 8)

/-- A bit array with bit `i` set. -/
def setBit (bits : Bytes) (i : Nat) : Bytes := bits.modify (i / 8) (· ||| bitMask i)

/-- Whether bit `i` is set; there is none past the end. -/
def getBit (bits : Bytes) (i : Nat) : Bool :=
  match bits[i / 8]? with
  | some b => b &&& bitMask i != 0
  | none => false

/-- The bits that an element picks, one per hash function. -/
def picks (f : BloomFilter) (element : Bytes) : List Nat :=
  (List.range f.k.toNat).map (f.bitIndex element)

/-- The filter with the bits of an element set. -/
def add (f : BloomFilter) (element : Bytes) : BloomFilter :=
  if f.bits.isEmpty then f else { f with bits := (f.picks element).foldl setBit f.bits }

/-- Whether the filter accepts an element. -/
def check (f : BloomFilter) (element : Bytes) : Bool :=
  !f.bits.isEmpty && (f.picks element).all (getBit f.bits)

/-- Whether the filter accepts a transaction, by its hash. -/
def accepts (f : BloomFilter) (tx : Transaction) : Bool := f.check tx.hash.toList

/-- A block as the filter's owner sees it: the transactions that the filter accepts are marked. -/
def reduce (f : BloomFilter) (b : Block) : MerkleBlock :=
  MerkleBlock.ofBlock b (b.transactions.map f.accepts)

end BloomFilter

end PeerNet
