import PeerNet.Message.Capability

/-!
# Versions

The identity that a node announces when a connection opens: its network, its nonce, its name and
its capabilities.
-/

namespace PeerNet

/-- What a node says about itself at the start of a connection. -/
structure Version where
  /-- Names the network; nodes of different networks refuse each other. -/
  magic : UInt32
  version : UInt32
  /-- Seconds since 1970 when the version was made. -/
  timestamp : UInt32
  /-- Drawn anew by each process, so that a node recognises itself. -/
  nonce : UInt32
  userAgent : String
  capabilities : List Capability
  deriving DecidableEq, Repr

namespace Version

/-- The longest user agent on the wire, in bytes. -/
def maxUserAgentSize : Nat := 1024

/-- The fields in order, each in its wire form. -/
def encode (v : Version) : Bytes :=
  toLE 4 v.magic.toNat ++ toLE 4 v.version.toNat ++ toLE 4 v.timestamp.toNat ++
    toLE 4 v.nonce.toNat ++ encodeSizedText v.userAgent ++ Capability.encodeList v.capabilities

/-- Reads the fields in order. -/
def decoder : Decoder Version := do
  return {
    magic := ← Decoder.u32
    version := ← Decoder.u32
    timestamp := ← Decoder.u32
    nonce := ← Decoder.u32
    userAgent := ← Decoder.sizedText maxUserAgentSize
    capabilities := ← Capability.listDecoder }

/-- The port of the first TCP server announced; it may be zero. -/
def listenerTcpPort (v : Version) : Option UInt16 := Capability.listenerTcpPort v.capabilities

/-- The port at which the node accepts connections, if there is a real one. -/
def listenerPort (v : Version) : Option UInt16 := Capability.listenerPort v.capabilities

/-- The chain height announced, if any. -/
def announcedHeight (v : Version) : Option UInt32 := Capability.startHeight v.capabilities

/-- The chain height announced, zero if none is. -/
def startHeight (v : Version) : UInt32 := v.announcedHeight.getD 0

/-- Whether the node stores the whole chain, and so takes announcements. -/
def isFullNode (v : Version) : Bool := v.announcedHeight.isSome

end Version

end PeerNet
