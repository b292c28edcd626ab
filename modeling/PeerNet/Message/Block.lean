import PeerNet.Hash.Sha256
import PeerNet.Message.Inventory

/-!
# Chain objects

Blocks, transactions and consensus items. The bodies of the latter two are opaque here; all that
counts is their content hash. A block's hash covers every header field but the witness.

A merkle block is a block with its transactions replaced by their hashes and one flag bit each,
which says whether the receiver's filter accepted the transaction.
-/

namespace PeerNet

/-- The largest opaque body. -/
def maxOpaqueSize : Nat := 0x0200_0000

/-- A block header. -/
structure Header where
  version : UInt32
  prevHash : Hash
  merkleRoot : Hash
  timestamp : UInt64
  nonce : UInt64
  index : UInt32
  primaryIndex : UInt8
  nextConsensus : ScriptHash
  witness : Bytes
  deriving DecidableEq

namespace Header

/-- The longest witness. -/
def maxWitnessSize : Nat := 1024

/-- The most headers in one message. -/
def maxCount : Nat := 2000

/-- Every field but the witness. -/
def encodeUnsigned (h : Header) : Bytes :=
  toLE 4 h.version.toNat ++ h.prevHash.toList ++ h.merkleRoot.toList ++
    toLE 8 h.timestamp.toNat ++ toLE 8 h.nonce.toNat ++ toLE 4 h.index.toNat ++
    h.primaryIndex :: h.nextConsensus.toList

/-- The unsigned fields, then the witness. -/
def encode (h : Header) : Bytes := h.encodeUnsigned ++ encodeSizedBytes h.witness

/-- The content hash; the witness has no part in it. -/
def hash (h : Header) : Hash := contentHash h.encodeUnsigned

/-- Reads the fields in order. -/
def decoder : Decoder Header := do
  return {
    version := ← Decoder.u32
    prevHash := ← Decoder.fixed 32
    merkleRoot := ← Decoder.fixed 32
    timestamp := ← Decoder.u64
    nonce := ← Decoder.u64
    index := ← Decoder.u32
    primaryIndex := ← Decoder.byte
    nextConsensus := ← Decoder.fixed 20
    witness := ← Decoder.sizedBytes maxWitnessSize }

/-- The list form on the wire. -/
def encodeList (hs : List Header) : Bytes := encodeSizedList encode hs

/-- Reads a list of at most `maxCount` headers. -/
def listDecoder : Decoder (List Header) := Decoder.sizedList decoder maxCount

end Header

/-- A transaction body. -/
structure Transaction where
  data : Bytes
  deriving DecidableEq

namespace Transaction

/-- The largest transaction that is relayed, measured on the wire. -/
def maxRelayedSize : Nat := 102400

/-- The content hash. -/
def hash (tx : Transaction) : Hash := contentHash tx.data

/-- The body behind its length. -/
def encode (tx : Transaction) : Bytes := encodeSizedBytes tx.data

/-- The size on the wire. -/
def size (tx : Transaction) : Nat := CompactSize.encodedSize tx.data.length + tx.data.length

/-- Reads a body. -/
def decoder : Decoder Transaction := do
  return ⟨← Decoder.sizedBytes maxOpaqueSize⟩

end Transaction

/-- A message of the consensus protocol. -/
structure Consensus where
  data : Bytes
  deriving DecidableEq

namespace Consensus

/-- The content hash. -/
def hash (c : Consensus) : Hash := contentHash c.data

/-- The body behind its length. -/
def encode (c : Consensus) : Bytes := encodeSizedBytes c.data

/-- Reads a body. -/
def decoder : Decoder Consensus := do
  return ⟨← Decoder.sizedBytes maxOpaqueSize⟩

end Consensus

/-- A header with its transactions. -/
structure Block where
  header : Header
  transactions : List Transaction
  deriving DecidableEq

namespace Block

/-- The most transactions in a block. -/
def maxTransactions : Nat := 65535

/-- The hash of the header. -/
def hash (b : Block) : Hash := b.header.hash

/-- The place in the chain. -/
def index (b : Block) : UInt32 := b.header.index

/-- The header, then the transactions. -/
def encode (b : Block) : Bytes :=
  b.header.encode ++ encodeSizedList Transaction.encode b.transactions

/-- Reads the header and the transactions. -/
def decoder : Decoder Block := do
  return { header := ← Header.decoder
           transactions := ← Decoder.sizedList Transaction.decoder maxTransactions }

end Block

/-- A block reduced to transaction hashes and match flags. -/
structure MerkleBlock where
  header : Header
  txCount : UInt32
  hashes : List Hash
  /-- One bit per transaction, the lowest bit of a byte first. -/
  flags : Bytes
  deriving DecidableEq

namespace MerkleBlock

/-- The most flag bytes: a bit for each transaction. -/
def maxFlagsSize : Nat := (Block.maxTransactions + 7) / 8

/-- The byte whose bit `i` is the `i`-th of at most eight flags. -/
def packByte : List Bool → UInt8
  | [] => 0
  | m :: ms => (if m then (1 : UInt8) else 0) ||| (packByte ms <<< 1)

/-- Flags packed eight to a byte. -/
def packFlags : List Bool → Bytes
  | [] => []
  | m :: ms => packByte ((m :: ms).take 8) :: packFlags ((m :: ms).drop 8)
termination_by ms => ms.length
decreasing_by simp only [List.length_drop, List.length_cons]; omega

/-- Reduces a block to its transaction hashes, with one flag per transaction. -/
def ofBlock (block : Block) (marks : List Bool) : MerkleBlock where
  header := block.header
  txCount := UInt32.ofNat block.transactions.length
  hashes := block.transactions.map Transaction.hash
  flags := packFlags marks

/-- Whether the flag of the transaction at `i` is set; there is none past the last byte. -/
def isMatched (m : MerkleBlock) (i : Nat) : Bool :=
  match m.flags[i / 8]? with
  | some flags => flags &&& ((1 : UInt8) <<< UInt8.ofNat (i % 8)) != 0
  | none => false

/-- Header, transaction count, hashes, flags. -/
def encode (m : MerkleBlock) : Bytes :=
  m.header.encode ++ CompactSize.encode m.txCount.toNat ++
    encodeSizedList FixedBytes.toList m.hashes ++ encodeSizedBytes m.flags

/-- Reads the fields in order; the count is checked before the hashes are read. -/
def decoder : Decoder MerkleBlock := do
  let header ← Header.decoder
  let txCount ← CompactSize.decoder
  if txCount > Block.maxTransactions then Decoder.refuse .tooManyMerkleTransactions
  return {
    header
    txCount := UInt32.ofNat txCount
    hashes := ← Decoder.sizedList (Decoder.fixed 32) Block.maxTransactions
    flags := ← Decoder.sizedBytes maxFlagsSize }

end MerkleBlock

/-- Any chain object that is relayed. -/
inductive Inventory
  | transaction (tx : Transaction)
  | block (b : Block)
  | consensus (c : Consensus)
  deriving DecidableEq

namespace Inventory

/-- The content hash. -/
def hash : Inventory → Hash
  | transaction tx => tx.hash
  | block b => b.hash
  | consensus c => c.hash

/-- Which kind of object it is. -/
def kind : Inventory → InventoryKind
  | transaction _ => .transaction
  | block _ => .block
  | consensus _ => .consensus

end Inventory

end PeerNet
