import PeerNet.Message.Capability
import PeerNet.Net.Endpoint

/-!
# Address records

A known node with its address, its capabilities and the time it was last seen. Lists of records
travel in two places: as the answer to a request for addresses, which is never empty, and inside
the data of a disconnect notice, which may be.
-/

namespace PeerNet

/-- A node that others may connect to. -/
structure AddressRecord where
  /-- Seconds since 1970 when the node was last seen. -/
  timestamp : UInt32
  ip : Ip
  capabilities : List Capability
  deriving DecidableEq

namespace AddressRecord

/-- The most records in one list. -/
def maxCount : Nat := 200

/-- The record of an address, in normal form. -/
def ofIp (ip : Ip) (timestamp : UInt32) (capabilities : List Capability) : AddressRecord :=
  ⟨timestamp, ip.normal, capabilities⟩

/-- Where the node can be reached; the port is zero if it announced no TCP server. -/
def endpoint (r : AddressRecord) : Endpoint :=
  ⟨r.ip, (Capability.listenerTcpPort r.capabilities).getD 0⟩

/-- Time, sixteen address octets, capabilities. -/
def encode (r : AddressRecord) : Bytes :=
  toLE 4 r.timestamp.toNat ++ r.ip.wireOctets.toList ++ Capability.encodeList r.capabilities

/-- Reads a record and brings its address to normal form. -/
def decoder : Decoder AddressRecord := do
  let timestamp ← Decoder.u32
  let octets ← Decoder.fixed 16
  let capabilities ← Capability.listDecoder
  return ofIp (.v6 octets) timestamp capabilities

/-- The list form on the wire. -/
def encodeList (rs : List AddressRecord) : Bytes := encodeSizedList encode rs

/-- Reads a list of at most `maxCount` records. -/
def listDecoder : Decoder (List AddressRecord) := Decoder.sizedList decoder maxCount

/-- Reads a list that has to hold at least one record. -/
def nonemptyListDecoder : Decoder (List AddressRecord) := do
  let records ← listDecoder
  if records.isEmpty then Decoder.refuse .emptyAddressList else return records

/-- Reads the list inside the data of a disconnect notice, which holds nothing else. -/
def decodeList (bs : Bytes) : Except DecodeError (List AddressRecord) :=
  match listDecoder bs with
  | .ok (records, []) => .ok records
  | .ok (_, _ :: _) => .error (.malformed .bytesAfterAddressList)
  | .error e => .error e

end AddressRecord

end PeerNet
