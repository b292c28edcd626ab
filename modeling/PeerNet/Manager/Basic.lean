import PeerNet.Peer.AddressBook
import PeerNet.Peer.Registry
import PeerNet.Session.Basic

/-!
# The manager of connections

One manager owns the registry of live connections and the address book. It takes one command at a
time (`ManagerCommand`), from the sessions, from the owner of the node and from the clock, and never
waits: what it wants done it leaves to others (`ManagerEffect`).
-/

namespace PeerNet

/-- What the manager is told. -/
inductive ManagerCommand
  /-- A new stream asks to become a connection. -/
  | connect (remote : Endpoint) (direction : Direction)
  /-- A session reports, or asks something. -/
  | notice (peer : PeerId) (n : PeerNotice)
  /-- Endpoints that may be worth a connection. -/
  | addPeers (endpoints : List Endpoint)
  /-- An object of the node's own is to be announced. -/
  | relay (inventory : Inventory)
  /-- A message for every peer that is ready. -/
  | broadcast (m : Message)
  /-- Somebody wants to see what the manager keeps. -/
  | inspect
  /-- It is time to look for more connections. -/
  | tick
  /-- A connection attempt is over, whatever came of it. -/
  | dialFinished (endpoint : Endpoint)
  /-- A notice to a rejected stream is written, or given up. -/
  | rejectionFinished
  /-- A caller, told apart by a number, wants the node to stop, and to know when it has. -/
  | shutdown (caller : Nat)

/-- What the manager wants done. -/
inductive ManagerEffect
  /-- The stream becomes a connection. -/
  | accepted (peer : PeerId)
  /-- The stream is closed, after a notice if there is one. -/
  | rejected (notice : Option Disconnect)
  /-- A session gets an answer. -/
  | answer (peer : PeerId) (a : ManagerAnswer)
  /-- A session gets a command. -/
  | command (peer : PeerId) (c : SessionCommand)
  /-- A connection attempt begins. -/
  | dial (endpoint : Endpoint)
  | report (peer : PeerId) (r : TaskReport)
  /-- The node has stopped; these callers waited for it. -/
  | stopped (callers : List Nat)

/-- Whether the node runs. -/
inductive ManagerPhase
  | running
  /-- The node stops as soon as no connection is left. -/
  | closing (callers : List Nat)
  | stopped
  deriving DecidableEq, Repr

/-- The free choices of a node. -/
structure Choices where
  /-- The order in which connections are gone through. -/
  order : List (PeerId × PeerEntry) → List (PeerId × PeerEntry)
  /-- A draw of at most so many records. -/
  drawRecords : Nat → List AddressRecord → List AddressRecord
  /-- A draw of at most so many endpoints. -/
  drawEndpoints : Nat → List Endpoint → List Endpoint

/-- The choices of a node that always takes what comes first. -/
def Choices.first : Choices := ⟨id, List.take, List.take⟩

/-- What the manager keeps. -/
structure Manager where
  settings : Settings
  registry : Registry
  book : AddressBook
  /-- Where connection attempts are under way. -/
  dialing : List Endpoint
  /-- How many notices to rejected streams are being written. -/
  pendingRejections : Nat
  phase : ManagerPhase

namespace Manager

/-- The most addresses suggested to a peer. -/
def maxSuggestions : Nat := AddressRecord.maxCount

/-- A manager with no connections and no addresses. -/
def start (settings : Settings) : Manager :=
  ⟨settings, .empty, .ofSize settings.maxAddressBookSize, [], 0, .running⟩

/-- Whether new connections are welcome. -/
def isRunning (m : Manager) : Bool := m.phase == .running

/-- Whether the node has stopped. -/
def isStopped (m : Manager) : Bool := m.phase == .stopped

end Manager

/-- The record under which a peer is suggested to others, if it accepts connections. -/
def PeerEntry.suggestion (e : PeerEntry) : Option AddressRecord :=
  e.version.bind fun v =>
    v.listenerPort.map fun _ => .ofIp e.address v.timestamp v.capabilities

namespace Manager

/-- The records whose address is not among those seen, the first one where an address repeats. -/
def onePerAddress (seen : List Ip) : List AddressRecord → List AddressRecord
  | [] => []
  | r :: rest =>
    if seen.contains r.ip then onePerAddress seen rest else r :: onePerAddress (r.ip :: seen) rest

/-- At most `count` peers that are ready and accept connections, one for each address. -/
def connectedPeers (m : Manager) (choices : Choices) (count : Nat) : List AddressRecord :=
  let entries := (choices.order m.registry.peers).filter (·.2.ready)
  choices.drawRecords count (onePerAddress [] (entries.filterMap (·.2.suggestion)))

/-- All known addresses, the one seen last first. -/
def knownAddresses (m : Manager) : List AddressRecord := m.book.addresses

/-- The known endpoints to which no live connection leads. -/
def unconnectedPeers (m : Manager) : List Endpoint :=
  m.book.endpoints.filter (!m.registry.isConnectedTo ·)

/-- The records from the front of a list that fit into one notice. -/
def fitting (records : List AddressRecord) : List AddressRecord :=
  if (AddressRecord.encodeList records).length ≤ Disconnect.maxDataSize then records
  else if records = [] then [] else fitting records.dropLast
termination_by records.length
decreasing_by
  rename_i nonempty
  have := List.length_pos_iff.2 nonempty
  simp only [List.length_dropLast]
  omega

/-- The notice to a rejected stream: why, and as many nodes to try instead as fit. -/
def rejectionNotice (reason : DisconnectReason) (records : List AddressRecord) :
    Option Disconnect :=
  (Disconnect.create reason reason.text (AddressRecord.encodeList (fitting records))).toOption

end Manager

end PeerNet
