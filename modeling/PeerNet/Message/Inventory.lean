import PeerNet.Wire.CompactSize

/-!
# Announcements and requests

Chain objects are announced and asked for by hash. One message holds at most 500 hashes of one
kind. An announcement above the cap is refused; a request above it is read in full but served only
for its first 500 hashes.
-/

namespace PeerNet

/-- The kinds of chain object that are relayed. -/
inductive InventoryKind
  | transaction
  | block
  | consensus
  deriving DecidableEq, Repr

namespace InventoryKind

/-- The byte of each kind. -/
def code : InventoryKind → UInt8
  | transaction => 0x2b
  | block => 0x2c
  | consensus => 0x2d

/-- The kind that a byte stands for. -/
def ofCode? (b : UInt8) : Option InventoryKind :=
  if b = 0x2b then some transaction
  else if b = 0x2c then some block
  else if b = 0x2d then some consensus
  else none

/-- The name of each kind, that of the command which carries it. -/
def name : InventoryKind → String
  | transaction => "Transaction"
  | block => "Block"
  | consensus => "Consensus"

/-- The kind with a given name. -/
def ofName? (text : String) : Option InventoryKind :=
  [transaction, block, consensus].find? (·.name == text)

/-- The word for each kind. -/
def text : InventoryKind → String
  | transaction => "tx"
  | block => "block"
  | consensus => "consensus"

/-- Reads a kind. -/
def decoder : Decoder InventoryKind := do
  Decoder.orRefuse (ofCode? (← Decoder.byte)) .unknownInventoryType

end InventoryKind

/-- Hashes of one kind of object, announced, asked for, or not found. -/
structure HashList where
  kind : InventoryKind
  hashes : List Hash
  deriving DecidableEq

namespace HashList

/-- The most hashes in one message. -/
def maxCount : Nat := 500

/-- The kind, then the hashes behind their count. -/
def encode (l : HashList) : Bytes :=
  l.kind.code :: encodeSizedList FixedBytes.toList l.hashes

/-- Reads a list within the cap. -/
def decoder : Decoder HashList := do
  return { kind := ← InventoryKind.decoder
           hashes := ← Decoder.sizedList (Decoder.fixed 32) maxCount }

/-- Reads a request with any number of hashes, of which the first `maxCount` are kept. -/
def requestDecoder : Decoder HashList := do
  let kind ← InventoryKind.decoder
  let count ← CompactSize.decoder
  let hashes ← Decoder.items (Decoder.fixed 32) (min count maxCount)
  let _ ← Decoder.take (32 * (count - maxCount))
  return ⟨kind, hashes⟩

/-- Reads a request that fills the whole byte string. -/
def decodeRequest (bs : Bytes) : Except DecodeError HashList :=
  match requestDecoder bs with
  | .ok (l, []) => .ok l
  | .ok (_, _ :: _) => .error (.malformed .bytesAfterRequest)
  | .error e => .error e

/-- The announcements that together name every hash, each within the cap. -/
def grouped (kind : InventoryKind) (hashes : List Hash) : List HashList :=
  match hashes with
  | [] => []
  | h :: rest =>
    ⟨kind, (h :: rest).take maxCount⟩ :: grouped kind ((h :: rest).drop maxCount)
termination_by hashes.length
decreasing_by simp only [maxCount, List.length_drop, List.length_cons]; omega

end HashList

/-- A walk along the chain from a known hash; a negative count asks for as many as allowed. -/
structure ChainWalk where
  start : Hash
  count : Int16
  deriving DecidableEq

namespace ChainWalk

/-- The hash, then the count in two's complement. -/
def encode (w : ChainWalk) : Bytes := w.start.toList ++ toLE 2 w.count.toUInt16.toNat

/-- Reads the hash and the count. -/
def decoder : Decoder ChainWalk := do
  return { start := ← Decoder.fixed 32, count := ← Decoder.i16 }

end ChainWalk

/-- A run of blocks by index. -/
structure BlockRange where
  start : UInt32
  count : UInt16
  deriving DecidableEq, Repr

namespace BlockRange

/-- The first index, then the count. -/
def encode (r : BlockRange) : Bytes := toLE 4 r.start.toNat ++ toLE 2 r.count.toNat

/-- Reads the first index and the count. -/
def decoder : Decoder BlockRange := do
  return { start := ← Decoder.u32, count := ← Decoder.u16 }

end BlockRange

end PeerNet
