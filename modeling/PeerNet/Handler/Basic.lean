import PeerNet.Bloom.Filter
import PeerNet.Handshake
import PeerNet.Ledger.Basic
import PeerNet.Mailbox
import PeerNet.Peer.Id
import PeerNet.Tracking.FifoSet
import PeerNet.Tracking.PendingHashes

/-!
# The protocol handler: what it keeps and what it asks for

A handler answers one peer. It owns no stream: from each item of its mailbox it works out events,
which the session carries out, and reports for the coordinator that spreads work over the peers.

Three sets of hashes keep traffic low: those that the peer is known to have, those that were sent to
it, and those that it announced and that are awaited from it.
-/

namespace PeerNet

/-- What the coordinator of outstanding work is told about a peer. -/
inductive TaskReport
  /-- The handshake with the peer is complete. -/
  | peerReady (version : Version)
  /-- A peer that was ready has gone. -/
  | peerDisconnected
  /-- The peer announced objects that the node does not have. -/
  | newTasks (l : HashList)
  /-- The peer delivered the object with this hash. -/
  | taskCompleted (hash : Hash)
  /-- The peer answered a request for headers. -/
  | headersReceived (headers : List Header)
  /-- The peer delivered an object, which is about to be relayed. -/
  | inventoryReceived (inventory : Inventory)
  /-- The peer reported a greater chain height. -/
  | heightUpdated (height : UInt32)
  deriving DecidableEq

/-- What the session does on behalf of the handler. -/
inductive HandlerEvent
  /-- Write a message to the peer. -/
  | send (m : Message)
  /-- The peer introduced itself; the manager decides whether it may stay. -/
  | versionReceived (v : Version)
  /-- The handshake is complete. -/
  | ready (v : Version)
  /-- The peer's filter was loaded, extended or cleared. -/
  | filterChanged (f : Option BloomFilter)
  /-- The peer asks for addresses of other nodes. -/
  | addressRequest
  /-- The peer suggests nodes that can be reached. -/
  | peers (records : List AddressRecord)
  /-- The peer delivered an object that others may want. -/
  | relay (inventory : Inventory)
  /-- The peer reported its chain height. -/
  | remoteHeight (height : UInt32)
  /-- The peer said farewell. -/
  | stop
  deriving DecidableEq

/-- The present, on two clocks. -/
structure Moment where
  /-- Milliseconds on a clock of the node's own. -/
  now : Nat
  /-- Seconds since 1970. -/
  unixTime : UInt32
  deriving DecidableEq, Repr

/-- The protocol's side of one connection. -/
structure Handler where
  state : HandshakeState
  /-- What the peer said about itself. -/
  version : Option Version
  filter : Option BloomFilter
  /-- Hashes that the peer has: delivered by it or announced to it. -/
  known : FifoSet Hash
  /-- Hashes that the peer asked for. -/
  sent : FifoSet Hash
  /-- Hashes that the peer announced and that are awaited. -/
  pending : PendingHashes Hash
  /-- For how long they are awaited, in milliseconds. -/
  pendingTimeout : Nat

namespace Handler

/-- The greatest set size, that of a 64-bit machine. -/
def maxSetCapacity : Nat := 0xFFFF_FFFF_FFFF_FFFF

/-- How many hashes the sets for a peer hold: two for each place in the memory pool. -/
def setCapacity (ledger : Ledger) : Nat := min (2 * ledger.mempoolCapacity) maxSetCapacity

/-- The handler of a new connection. -/
def start (ledger : Ledger) (pendingTimeout : Nat) : Handler where
  state := .awaitingVersion
  version := none
  filter := none
  known := FifoSet.ofCapacity (setCapacity ledger)
  sent := FifoSet.ofCapacity (setCapacity ledger)
  pending := PendingHashes.empty
  pendingTimeout

/-- The handler from now on ignores everything. -/
def stop (h : Handler) : Handler := { h with state := .stopped }

/-- What a handler makes of something: its next state, events, and reports, in order. -/
structure Reaction where
  handler : Handler
  events : List HandlerEvent
  reports : List TaskReport

/-- Nothing but events. -/
def answering (h : Handler) (events : List HandlerEvent) : Reaction := ⟨h, events, []⟩

end Handler

end PeerNet
