import PeerNet.Wire.CompactSize

/-!
# Disconnect notices

Sent by a node before it closes a connection: the reason, a text for people, and data. For two of
the reasons the data is a list of other nodes to try.
-/

namespace PeerNet

/-- Why a node closes a connection. -/
inductive DisconnectReason
  /-- No connection slots are free. -/
  | maxConnectionReached
  /-- The address already has its share of connections. -/
  | maxConnectionPerAddressReached
  /-- The remote is the node itself or already connected. -/
  | duplicateConnection
  /-- The remote sent a message that its state does not allow. -/
  | protocolViolation
  /-- The remote belongs to another network. -/
  | magicNumberIncompatible
  /-- The handshake took too long. -/
  | connectionTimeout
  /-- The node is shutting down. -/
  | shutdown
  deriving DecidableEq, Repr

namespace DisconnectReason

/-- All reasons, in the order of their bytes. -/
def all : List DisconnectReason :=
  [maxConnectionReached, maxConnectionPerAddressReached, duplicateConnection, protocolViolation,
    magicNumberIncompatible, connectionTimeout, shutdown]

/-- The byte of each reason. -/
def code : DisconnectReason → UInt8
  | maxConnectionReached => 0x01
  | maxConnectionPerAddressReached => 0x02
  | duplicateConnection => 0x03
  | protocolViolation => 0x04
  | magicNumberIncompatible => 0x05
  | connectionTimeout => 0x06
  | shutdown => 0x07

/-- The reason that a byte stands for. -/
def ofCode? (b : UInt8) : Option DisconnectReason := all.find? (·.code == b)

/-- The words for each reason. -/
def text : DisconnectReason → String
  | maxConnectionReached => "max connections reached"
  | maxConnectionPerAddressReached => "max connections per address reached"
  | duplicateConnection => "duplicate connection"
  | protocolViolation => "protocol violation"
  | magicNumberIncompatible => "magic number incompatible"
  | connectionTimeout => "connection timeout"
  | shutdown => "shutdown"

/-- The short name of each reason. -/
def name : DisconnectReason → String
  | maxConnectionReached => "MaxConnectionReached"
  | maxConnectionPerAddressReached => "MaxConnectionPerAddressReached"
  | duplicateConnection => "DuplicateConnection"
  | protocolViolation => "ProtocolViolation"
  | magicNumberIncompatible => "MagicNumberIncompatible"
  | connectionTimeout => "ConnectionTimeout"
  | shutdown => "Shutdown"

/-- The reason with a given short name. -/
def ofName? (text : String) : Option DisconnectReason := all.find? (·.name == text)

/-- Whether the data of such a notice is a list of nodes to try. -/
def carriesAddresses : DisconnectReason → Bool
  | maxConnectionReached | maxConnectionPerAddressReached => true
  | _ => false

end DisconnectReason

/-- A notice that the connection is about to close. -/
structure Disconnect where
  reason : DisconnectReason
  message : String
  data : Bytes
  deriving DecidableEq

/-- Why a notice cannot be made. -/
inductive NoticeError
  | dataTooLarge (size : Nat)
  | messageTooLong (size : Nat)
  deriving DecidableEq, Repr

namespace Disconnect

/-- The most data, in bytes. -/
def maxDataSize : Nat := 1024

/-- The longest message, in bytes. -/
def maxMessageSize : Nat := 255

/-- A notice that fits the wire; the data is measured first. -/
def create (reason : DisconnectReason) (message : String) (data : Bytes) :
    Except NoticeError Disconnect :=
  if data.length > maxDataSize then .error (.dataTooLarge data.length)
  else if message.utf8ByteSize > maxMessageSize then .error (.messageTooLong message.utf8ByteSize)
  else .ok ⟨reason, message, data⟩

/-- The notice that gives only its reason, in code and in words. -/
def plain (reason : DisconnectReason) : Disconnect := ⟨reason, reason.text, []⟩

/-- Reason byte, message, data. -/
def encode (d : Disconnect) : Bytes :=
  d.reason.code :: (encodeSizedText d.message ++ encodeSizedBytes d.data)

/-- Reads the fields in order; an unknown reason is refused at once. -/
def decoder : Decoder Disconnect := do
  let reason ← Decoder.orRefuse (DisconnectReason.ofCode? (← Decoder.byte)) .unknownDisconnectReason
  return { reason
           message := ← Decoder.sizedText maxMessageSize
           data := ← Decoder.sizedBytes maxDataSize }

end Disconnect

/-- The text shown for a notice that cannot be made. -/
def NoticeError.message : NoticeError → String
  | dataTooLarge size =>
    s!"Payload data of {size} bytes exceeds maximum of {Disconnect.maxDataSize}"
  | messageTooLong size =>
    s!"Payload message of {size} bytes exceeds maximum of {Disconnect.maxMessageSize}"

end PeerNet
