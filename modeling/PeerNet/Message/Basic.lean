import PeerNet.Message.AddressRecord
import PeerNet.Message.Block
import PeerNet.Message.Command
import PeerNet.Message.Disconnect
import PeerNet.Message.Filter
import PeerNet.Message.Ping
import PeerNet.Message.Version

/-!
# Messages

A message on the wire is a flags byte, a command byte, and the payload behind its length. The
lowest flag bit would mark a compressed payload, which no node here accepts; the other bits are
ignored. The payload has to be used up by its decoder.
-/

namespace PeerNet

/-- What peers say to each other. -/
inductive Message
  | version (v : Version)
  | verack
  | disconnect (d : Disconnect)
  | getAddr
  | addr (records : List AddressRecord)
  | ping (p : Ping)
  | pong (p : Ping)
  | getHeaders (walk : ChainWalk)
  | headers (hs : List Header)
  | getBlocks (walk : ChainWalk)
  | mempool
  | inv (l : HashList)
  | getData (l : HashList)
  | getBlockData (range : BlockRange)
  | notFound (l : HashList)
  | transaction (tx : Transaction)
  | block (b : Block)
  | consensus (c : Consensus)
  | reject (bytes : Bytes)
  | filterLoad (f : FilterLoad)
  | filterAdd (f : FilterAdd)
  | filterClear
  | merkleBlock (m : MerkleBlock)
  | alert (bytes : Bytes)
  deriving DecidableEq

namespace Message

/-- The largest payload. -/
def maxPayloadSize : Nat := 0x0200_0000

/-- Whether a flags byte marks a compressed payload. -/
def isCompressed (flags : UInt8) : Bool := flags &&& 0x01 != 0

/-- The command of a message. -/
def command : Message → Command
  | version _ => .version
  | verack => .verack
  | disconnect _ => .disconnect
  | getAddr => .getAddr
  | addr _ => .addr
  | ping _ => .ping
  | pong _ => .pong
  | getHeaders _ => .getHeaders
  | headers _ => .headers
  | getBlocks _ => .getBlocks
  | mempool => .mempool
  | inv _ => .inv
  | getData _ => .getData
  | getBlockData _ => .getBlockData
  | notFound _ => .notFound
  | transaction _ => .transaction
  | block _ => .block
  | consensus _ => .consensus
  | reject _ => .reject
  | filterLoad _ => .filterLoad
  | filterAdd _ => .filterAdd
  | filterClear => .filterClear
  | merkleBlock _ => .merkleBlock
  | alert _ => .alert

/-- The payload; a message that is only its command has none. -/
def encodePayload : Message → Bytes
  | version v => v.encode
  | disconnect d => d.encode
  | addr records => AddressRecord.encodeList records
  | ping p | pong p => p.encode
  | getHeaders walk | getBlocks walk => walk.encode
  | headers hs => Header.encodeList hs
  | inv l | getData l | notFound l => l.encode
  | getBlockData range => range.encode
  | transaction tx => tx.encode
  | block b => b.encode
  | consensus c => c.encode
  | filterLoad f => f.encode
  | filterAdd f => f.encode
  | merkleBlock m => m.encode
  | reject bytes | alert bytes => bytes
  | verack | getAddr | mempool | filterClear => []

/-- The message that is only its command, provided the payload is empty. -/
def ofEmpty (m : Message) (payload : Bytes) : Except DecodeError Message :=
  if payload.isEmpty then .ok m else .error (.malformed .payloadNotEmpty)

/-- Reads the payload of a command. -/
def decodePayload : Command → Bytes → Except DecodeError Message
  | .version, bs => version <$> Version.decoder.decodeAll bs
  | .verack, bs => ofEmpty verack bs
  | .disconnect, bs => disconnect <$> Disconnect.decoder.decodeAll bs
  | .getAddr, bs => ofEmpty getAddr bs
  | .addr, bs => addr <$> AddressRecord.nonemptyListDecoder.decodeAll bs
  | .ping, bs => ping <$> Ping.decoder.decodeAll bs
  | .pong, bs => pong <$> Ping.decoder.decodeAll bs
  | .getHeaders, bs => getHeaders <$> ChainWalk.decoder.decodeAll bs
  | .headers, bs => headers <$> Header.listDecoder.decodeAll bs
  | .getBlocks, bs => getBlocks <$> ChainWalk.decoder.decodeAll bs
  | .mempool, bs => ofEmpty mempool bs
  | .inv, bs => inv <$> HashList.decoder.decodeAll bs
  | .getData, bs => getData <$> HashList.decodeRequest bs
  | .getBlockData, bs => getBlockData <$> BlockRange.decoder.decodeAll bs
  | .notFound, bs => notFound <$> HashList.decoder.decodeAll bs
  | .transaction, bs => transaction <$> Transaction.decoder.decodeAll bs
  | .block, bs => block <$> Block.decoder.decodeAll bs
  | .consensus, bs => consensus <$> Consensus.decoder.decodeAll bs
  | .reject, bs => .ok (reject bs)
  | .filterLoad, bs => filterLoad <$> FilterLoad.decoder.decodeAll bs
  | .filterAdd, bs => filterAdd <$> FilterAdd.decoder.decodeAll bs
  | .filterClear, bs => ofEmpty filterClear bs
  | .merkleBlock, bs => merkleBlock <$> MerkleBlock.decoder.decodeAll bs
  | .alert, bs => .ok (alert bs)

/-- The wire form: no flags, the command, the payload behind its length. -/
def encode (m : Message) : Bytes := 0 :: m.command.code :: encodeSizedBytes m.encodePayload

/-- Reads one message off the front of a byte string. -/
def decoder : Decoder Message := do
  let flags ← Decoder.byte
  if isCompressed flags then Decoder.refuse .compressedPayload
  let command ← Decoder.orRefuse (Command.ofCode? (← Decoder.byte)) .unknownCommand
  let payload ← Decoder.sizedBytes maxPayloadSize
  decodePayload command payload

/-- Reads a byte string that is one message and nothing more. -/
def decode (bs : Bytes) : Except DecodeError Message := decoder.decodeAll bs

end Message

end PeerNet
