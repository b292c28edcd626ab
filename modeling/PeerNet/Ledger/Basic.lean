import PeerNet.Message.Block

/-!
# Ledgers

What the node can find out about the local chain and the pool of transactions not yet in it. The
node reads a ledger and never changes it.
-/

namespace PeerNet

/-- Read access to a chain and its memory pool. -/
structure Ledger where
  /-- The index of the last block. -/
  height : UInt32
  /-- The hash of the block at an index. -/
  blockHash : UInt32 → Option Hash
  /-- The index of the block with a hash. -/
  blockIndex : Hash → Option UInt32
  containsBlock : Hash → Bool
  /-- Whether a transaction is in the chain or in the pool. -/
  containsTransaction : Hash → Bool
  block : Hash → Option Block
  /-- The block at an index; found by its hash, unless the ledger has a way of its own. -/
  blockAt : UInt32 → Option Block := fun index => (blockHash index).bind block
  /-- The header of the block with a hash; read off the block, unless headers are kept apart. -/
  header : Hash → Option Header := fun hash => (block hash).map Block.header
  transaction : Hash → Option Transaction
  /-- A consensus message that is still at hand. -/
  consensus : Hash → Option Consensus
  /-- The hashes of the pool, in its order. -/
  mempool : List Hash
  /-- How many transactions the pool can hold. -/
  mempoolCapacity : Nat

namespace Ledger

/-- Whether an object of a kind is at hand; nothing is known of consensus messages. -/
def holds (l : Ledger) (kind : InventoryKind) (h : Hash) : Bool :=
  match kind with
  | .block => l.containsBlock h
  | .transaction => l.containsTransaction h
  | .consensus => false

end Ledger

end PeerNet
