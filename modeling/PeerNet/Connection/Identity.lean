import PeerNet.UserAgent

/-!
# The local identity

What the node announces about itself on every connection, and how long it waits for an outbound
connection to come about.
-/

namespace PeerNet

/-- How the local node presents itself. -/
structure Identity where
  magic : UInt32
  protocolVersion : UInt32
  userAgent : UserAgent
  /-- The port on which connections are accepted, if any are. -/
  listenerPort : Option UInt16
  /-- Drawn by the node's owner, so that the node recognises itself. -/
  nonce : UInt32
  /-- In milliseconds. -/
  connectionTimeout : Nat

namespace Identity

/-- The identity of a node that accepts no connections. -/
def ofMagic (magic nonce : UInt32) : Identity where
  magic
  protocolVersion := 0
  userAgent := .standard
  listenerPort := none
  nonce
  connectionTimeout := 10000

/-- The services announced: a listener, if there is one, and the chain up to the height. -/
def capabilities (i : Identity) (startHeight : UInt32) : List Capability :=
  (i.listenerPort.map Capability.tcpServer).toList ++ [.fullNode startHeight]

/-- The version that opens every connection. -/
def version (i : Identity) (startHeight timestamp : UInt32) : Version where
  magic := i.magic
  version := i.protocolVersion
  timestamp
  nonce := i.nonce
  userAgent := i.userAgent.text
  capabilities := i.capabilities startHeight

end Identity

end PeerNet
