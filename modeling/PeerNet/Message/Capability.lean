import PeerNet.Wire.CompactSize

/-!
# Capabilities

What a node says it can do: accept connections on a port, or serve the chain from a height. The
first TCP server of a list is the port at which the node can be reached, and the first full node
entry its chain height.
-/

namespace PeerNet

/-- A service announced by a node. -/
inductive Capability
  /-- Accepts TCP connections on the port. -/
  | tcpServer (port : UInt16)
  /-- Accepts websocket connections on the port. -/
  | wsServer (port : UInt16)
  /-- Stores the whole chain, at present up to the height. -/
  | fullNode (startHeight : UInt32)
  deriving DecidableEq, Repr

namespace Capability

/-- The most capabilities that one node may announce. -/
def maxCount : Nat := 32

/-- A type byte, then the port or the height. -/
def encode : Capability → Bytes
  | tcpServer port => 0x01 :: toLE 2 port.toNat
  | wsServer port => 0x02 :: toLE 2 port.toNat
  | fullNode height => 0x10 :: toLE 4 height.toNat

/-- Reads one capability; the type byte decides what follows. -/
def decoder : Decoder Capability := do
  let kind ← Decoder.byte
  if kind = 0x01 then
    return tcpServer (← Decoder.u16)
  else if kind = 0x02 then
    return wsServer (← Decoder.u16)
  else if kind = 0x10 then
    return fullNode (← Decoder.u32)
  else
    Decoder.refuse .unknownCapability

/-- The port of a TCP server, if this is one. -/
def tcpPort? : Capability → Option UInt16
  | tcpServer port => some port
  | _ => none

/-- The chain height of a full node, if this is one. -/
def height? : Capability → Option UInt32
  | fullNode height => some height
  | _ => none

/-- The port of the first TCP server in a list; it may be zero. -/
def listenerTcpPort (cs : List Capability) : Option UInt16 := cs.findSome? tcpPort?

/-- The port at which connections are accepted: that of the first TCP server with a real port. -/
def listenerPort (cs : List Capability) : Option UInt16 :=
  cs.findSome? fun c => c.tcpPort?.filter (0 < ·)

/-- The height of the first full node in a list. -/
def startHeight (cs : List Capability) : Option UInt32 := cs.findSome? height?

/-- The list form on the wire. -/
def encodeList (cs : List Capability) : Bytes := encodeSizedList encode cs

/-- Reads a list of at most `maxCount` capabilities. -/
def listDecoder : Decoder (List Capability) := Decoder.sizedList decoder maxCount

end Capability

end PeerNet
