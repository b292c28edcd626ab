import PeerNet.Message.Basic

/-!
# Reported sizes

Every encoder tells how many bytes it has written. It adds the sizes up field by field and does not
measure what was written; only the payload of a message is measured before it is put into its frame.
-/

namespace PeerNet

/-- What the encoder of a byte string behind its length reports. -/
def sizedBytesSize (bs : Bytes) : Nat := CompactSize.encodedSize bs.length + bs.length

/-- What the encoder of a text behind its length reports. -/
def sizedTextSize (text : String) : Nat := sizedBytesSize (utf8Bytes text)

/-- What the encoder of a list behind its count reports. -/
def sizedListSize {α : Type} (itemSize : α → Nat) (xs : List α) : Nat :=
  xs.foldl (fun size x => size + itemSize x) (CompactSize.encodedSize xs.length)

/-- A type byte with a port or a height. -/
def Capability.encodedSize : Capability → Nat
  | tcpServer _ | wsServer _ => 1 + 2
  | fullNode _ => 1 + 4

/-- Four numbers, the user agent, the capabilities. -/
def Version.encodedSize (v : Version) : Nat :=
  4 + 4 + 4 + 4 + sizedTextSize v.userAgent + sizedListSize Capability.encodedSize v.capabilities

/-- Time, address, capabilities. -/
def AddressRecord.encodedSize (r : AddressRecord) : Nat :=
  4 + 16 + sizedListSize Capability.encodedSize r.capabilities

/-- Three numbers. -/
def Ping.encodedSize (_ : Ping) : Nat := 4 + 4 + 4

/-- A hash and a count. -/
def ChainWalk.encodedSize (_ : ChainWalk) : Nat := 32 + 2

/-- An index and a count. -/
def BlockRange.encodedSize (_ : BlockRange) : Nat := 4 + 2

/-- The kind is a single byte. -/
def InventoryKind.encodedSize (_ : InventoryKind) : Nat := 1

/-- The kind and the hashes. -/
def HashList.encodedSize (l : HashList) : Nat :=
  l.kind.encodedSize + sizedListSize (fun _ => 32) l.hashes

/-- The unsigned fields and the witness. -/
def Header.encodedSize (h : Header) : Nat :=
  4 + 32 + 32 + 8 + 8 + 4 + 1 + 20 + sizedBytesSize h.witness

/-- The header and the transactions. -/
def Block.encodedSize (b : Block) : Nat :=
  b.header.encodedSize + sizedListSize Transaction.size b.transactions

/-- The body behind its length. -/
def Consensus.encodedSize (c : Consensus) : Nat := sizedBytesSize c.data

/-- Header, transaction count, hashes, flags. -/
def MerkleBlock.encodedSize (m : MerkleBlock) : Nat :=
  m.header.encodedSize + CompactSize.encodedSize m.txCount.toNat +
    sizedListSize (fun _ => 32) m.hashes + sizedBytesSize m.flags

/-- Bits, hash functions, tweak. -/
def FilterLoad.encodedSize (f : FilterLoad) : Nat := sizedBytesSize f.filter + 1 + 4

/-- The element behind its length. -/
def FilterAdd.encodedSize (f : FilterAdd) : Nat := sizedBytesSize f.data

/-- Reason, message, data. -/
def Disconnect.encodedSize (d : Disconnect) : Nat :=
  1 + sizedTextSize d.message + sizedBytesSize d.data

namespace Message

/-- What the encoder of the payload reports. -/
def payloadSize : Message → Nat
  | version v => v.encodedSize
  | disconnect d => d.encodedSize
  | addr records => sizedListSize AddressRecord.encodedSize records
  | ping p | pong p => p.encodedSize
  | getHeaders walk | getBlocks walk => walk.encodedSize
  | headers hs => sizedListSize Header.encodedSize hs
  | inv l | getData l | notFound l => l.encodedSize
  | getBlockData range => range.encodedSize
  | transaction tx => tx.size
  | block b => b.encodedSize
  | consensus c => c.encodedSize
  | filterLoad f => f.encodedSize
  | filterAdd f => f.encodedSize
  | merkleBlock m => m.encodedSize
  | reject bytes | alert bytes => bytes.length
  | verack | getAddr | mempool | filterClear => 0

/-- Flags, command, and the payload measured as it was written. -/
def encodedSize (m : Message) : Nat := 1 + 1 + sizedBytesSize m.encodePayload

end Message

end PeerNet
