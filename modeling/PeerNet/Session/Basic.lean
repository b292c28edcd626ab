import PeerNet.Handler.Basic
import PeerNet.Node.Settings

/-!
# Sessions: what they are told, and what they do

A session drives one connection, from the local version to the closed stream. It is told what
happens one thing at a time (`SessionInput`) and answers with what it does (`SessionEffect`). It
never does two things at once: while a message is being written, or an answer of the manager is
awaited, nothing else is taken up, and the remaining events of the present item stay on its agenda.
-/

namespace PeerNet

/-- What the manager tells a session to do. -/
inductive SessionCommand
  /-- Write a message, once the handshake is complete. -/
  | send (m : Message)
  /-- Announce an object, unless the peer has it. -/
  | relay (kind : InventoryKind) (hash : Hash)
  /-- Say farewell and close. -/
  | disconnect (reason : DisconnectReason)
  deriving DecidableEq

/-- What a session tells the manager, or asks it. -/
inductive PeerNotice
  /-- May the peer stay that introduced itself like this? -/
  | introduced (version : Version)
  /-- The handshake is complete. -/
  | ready
  | filterChanged (filter : Option BloomFilter)
  | remoteHeight (height : UInt32)
  /-- The peer suggested these nodes. -/
  | suggested (records : List AddressRecord)
  /-- The peer delivered an object that others may want. -/
  | delivered (inventory : Inventory)
  /-- Which nodes can be suggested to the peer? -/
  | addressRequest
  /-- The session is over. -/
  | disconnected
  deriving DecidableEq

/-- What the manager answers to a session that asked. -/
inductive ManagerAnswer
  /-- Whether the peer may stay, and if not, why. -/
  | verdict (v : Except DisconnectReason Unit)
  | addresses (records : List AddressRecord)

/-- What a session is doing. -/
inductive SessionPhase
  /-- Writing the version that opens the connection. -/
  | opening
  /-- Waiting for something to do. -/
  | idle
  /-- Writing a message; the agenda comes next. -/
  | writing
  /-- Writing the farewell; nothing comes next. -/
  | parting
  /-- Waiting for the manager's verdict on the peer. -/
  | awaitingVerdict
  /-- Waiting for the addresses to suggest. -/
  | awaitingAddresses
  | over
  deriving DecidableEq, Repr

/-- One thing that happens to a session. -/
inductive SessionInput
  /-- The write under way is complete, or else has failed or taken too long. -/
  | written (complete : Bool)
  | answer (a : ManagerAnswer)
  | command (c : SessionCommand)
  | item (i : MailboxItem)
  /-- The time for the handshake is up. -/
  | handshakeTimeout
  /-- The stream has no more messages to offer. -/
  | readerFinished

/-- One thing that a session does. -/
inductive SessionEffect
  /-- Begin to write a message. -/
  | write (m : Message)
  | notify (n : PeerNotice)
  | report (r : TaskReport)
  /-- Close the stream. -/
  | close
  deriving DecidableEq

/-- The driver of one connection. -/
structure Session where
  handler : Handler
  phase : SessionPhase
  /-- Events that have not been carried out yet. -/
  agenda : List HandlerEvent
  /-- Whether the peer was reported as ready. -/
  announced : Bool

namespace Session

/-- How long a write may take, in milliseconds. -/
def writeTimeout : Nat := 30000

/-- Whether the handshake is complete. -/
def isReady (s : Session) : Bool := s.handler.state == .ready

/-- Whether the session is over. -/
def isOver (s : Session) : Bool := s.phase == .over

end Session

end PeerNet
