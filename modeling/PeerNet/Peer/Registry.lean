import PeerNet.Bloom.Filter
import PeerNet.Message.Disconnect
import PeerNet.Message.Version
import PeerNet.Net.Endpoint
import PeerNet.Peer.Id
import Std.Data.HashMap

/-!
# The registry of live connections

A connection is admitted only while there are fewer connections than allowed, both over all and from
its address. Addresses are compared in normal form. The number of connections from each address is
kept beside the connections themselves and changes with them.
-/

namespace PeerNet

/-- Which side opened a connection. -/
inductive Direction
  | inbound
  | outbound
  deriving DecidableEq, Repr

/-- The word for each direction. -/
def Direction.text : Direction → String
  | inbound => "inbound"
  | outbound => "outbound"

/-- What is known of a live connection. -/
structure PeerEntry where
  remote : Endpoint
  direction : Direction
  /-- What the peer said about itself, once it was accepted. -/
  version : Option Version
  /-- Whether the handshake is complete. -/
  ready : Bool
  filter : Option BloomFilter
  /-- The greatest chain height that the peer reported. -/
  lastBlockIndex : UInt32
  deriving DecidableEq

namespace PeerEntry

/-- A connection of which nothing but its origin is known. -/
def ofRemote (remote : Endpoint) (direction : Direction) : PeerEntry :=
  ⟨remote, direction, none, false, none, 0⟩

/-- The address of the remote, in normal form. -/
def address (e : PeerEntry) : Ip := e.remote.ip.normal

/-- The port at which the peer accepts connections, if it does. -/
def listenerPort (e : PeerEntry) : Option UInt16 := e.version.bind Version.listenerPort

/-- Where the peer can be reached, in normal form. -/
def listener (e : PeerEntry) : Option Endpoint := e.listenerPort.map (⟨e.address, ·⟩)

/-- Where the peer can be reached, with the address spelled as it came. -/
def spelledListener (e : PeerEntry) : Option Endpoint := e.listenerPort.map (⟨e.remote.ip, ·⟩)

/-- Whether the connection leads to an endpoint, given in normal form. -/
def reaches (e : PeerEntry) (endpoint : Endpoint) : Bool :=
  e.remote.normal == endpoint || e.listener == some endpoint

end PeerEntry

/-- All live connections. -/
structure Registry where
  /-- The connections, each with its number, in order of admission. -/
  peers : List (PeerId × PeerEntry)
  /-- How many connections there are from an address in normal form. -/
  perAddress : Std.HashMap Ip Nat
  /-- The number given out last.  It counts in 64 bits, and is taken never to overflow: that would
  take more than `2 ^ 64` admissions. -/
  lastId : Nat

namespace Registry

/-- No connections. -/
def empty : Registry := ⟨[], ∅, 0⟩

/-- The number of connections. -/
def size (r : Registry) : Nat := r.peers.length

/-- The number of connections from an address. -/
def connectionsFrom (r : Registry) (ip : Ip) : Nat := r.perAddress.getD ip.normal 0

/-- Admits a connection and gives it the next number, or says which cap is met. -/
def register (r : Registry) (remote : Endpoint) (direction : Direction)
    (maxConnections maxPerAddress : Nat) : Except DisconnectReason (Registry × PeerId) :=
  let ip := remote.ip.normal
  if r.size ≥ maxConnections then .error .maxConnectionReached
  else if r.connectionsFrom ip ≥ maxPerAddress then .error .maxConnectionPerAddressReached
  else
    let id : PeerId := ⟨r.lastId + 1⟩
    .ok (⟨r.peers ++ [(id, .ofRemote remote direction)],
      r.perAddress.insert ip (r.connectionsFrom ip + 1), r.lastId + 1⟩, id)

/-- What is known of a connection, if it is live. -/
def get? (r : Registry) (id : PeerId) : Option PeerEntry := r.peers.lookup id

/-- Forgets a connection; an address without connections is forgotten too. -/
def remove (r : Registry) (id : PeerId) : Registry × Option PeerEntry :=
  match r.get? id with
  | none => (r, none)
  | some entry =>
    let left := r.connectionsFrom entry.remote.ip - 1
    let perAddress :=
      if left = 0 then r.perAddress.erase entry.address else r.perAddress.insert entry.address left
    ({ r with peers := r.peers.filter (·.1 != id), perAddress }, some entry)

/-- Changes what is known of a connection, if it is live. -/
def modify (r : Registry) (id : PeerId) (f : PeerEntry → PeerEntry) : Registry :=
  { r with peers := r.peers.map fun (i, e) => if i = id then (i, f e) else (i, e) }

/-- The connections whose handshake is complete. -/
def ready (r : Registry) : List (PeerId × PeerEntry) := r.peers.filter (·.2.ready)

/-- Whether another connection from the same address announced the same nonce. -/
def isDuplicate (r : Registry) (id : PeerId) (ip : Ip) (nonce : UInt32) : Bool :=
  r.peers.any fun (other, e) =>
    other != id && e.address == ip.normal && e.version.any (·.nonce == nonce)

/-- Whether a live connection leads to an endpoint. -/
def isConnectedTo (r : Registry) (endpoint : Endpoint) : Bool :=
  r.peers.any (·.2.reaches endpoint.normal)

end Registry

end PeerNet
