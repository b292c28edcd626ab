import PeerNet.Ledger.Basic
import Std.Data.HashMap

/-!
# Ledgers held in memory

A chain given as a list of blocks, with a pool of transactions and consensus messages. Parts of the
chain may be unavailable: an index whose hash is not known, or a block whose body is not stored.
-/

namespace PeerNet

/-- The content of a ledger. -/
structure MemoryLedger where
  /-- The chain, from index zero on. -/
  blocks : List Block
  /-- The index of the last block, if it is not that of the last one stored. -/
  height : Option UInt32
  /-- Indices whose hash is not known. -/
  unknownIndices : List Nat
  /-- Indices whose block is not stored. -/
  unstoredIndices : List Nat
  transactions : List Transaction
  consensus : List Consensus
  /-- The pool, if it is not all of the transactions. -/
  mempool : Option (List Hash)
  mempoolCapacity : Nat

namespace MemoryLedger

/-- The `i`-th block of a plain chain, behind the block with hash `prevHash`. Everything in it is
derived from its index; each transaction body is the index and its own position. -/
def plainBlock (prevHash : Hash) (i txsPerBlock : Nat) : Block where
  header := {
    version := 0
    prevHash
    merkleRoot := default
    timestamp := UInt64.ofNat (1000 * i)
    nonce := UInt64.ofNat i
    index := UInt32.ofNat i
    primaryIndex := 0
    nextConsensus := default
    witness := [] }
  transactions := (List.range txsPerBlock).map fun t => ⟨toLE 4 i ++ toLE 4 t⟩

/-- A plain chain of `n` blocks from index zero on, each naming the one before it. -/
def plainChain (n txsPerBlock : Nat) : List Block :=
  let extend (acc : List Block × Hash) (i : Nat) : List Block × Hash :=
    let b := plainBlock acc.2 i txsPerBlock
    (b :: acc.1, b.hash)
  ((List.range n).foldl extend ([], default)).1.reverse

/-- The position of each item, the first one where hashes repeat. -/
def positions {α : Type} (hash : α → Hash) (items : List α) : Std.HashMap Hash Nat :=
  items.zipIdx.foldl (fun m (a, i) => m.insertIfNew (hash a) i) ∅

/-- Read access to the content. -/
def toLedger (l : MemoryLedger) : Ledger :=
  let blocks := l.blocks.toArray
  let hashes := blocks.map Block.hash
  let blockPositions := positions id hashes.toList
  let transactions := l.transactions.toArray
  let transactionPositions := positions Transaction.hash l.transactions
  let consensus := l.consensus.toArray
  let consensusPositions := positions Consensus.hash l.consensus
  { height := l.height.getD (UInt32.ofNat (l.blocks.length - 1))
    blockHash := fun i => if l.unknownIndices.contains i.toNat then none else hashes[i.toNat]?
    blockIndex := fun h => blockPositions[h]?.map UInt32.ofNat
    containsBlock := blockPositions.contains
    containsTransaction := transactionPositions.contains
    block := fun h => do
      let i ← blockPositions[h]?
      if l.unstoredIndices.contains i then none else blocks[i]?
    transaction := fun h => do transactions[← transactionPositions[h]?]?
    consensus := fun h => do consensus[← consensusPositions[h]?]?
    mempool := l.mempool.getD (l.transactions.map Transaction.hash)
    mempoolCapacity := l.mempoolCapacity }

end MemoryLedger

end PeerNet
