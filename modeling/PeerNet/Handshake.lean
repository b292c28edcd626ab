import PeerNet.Message.Command

/-!
# The handshake

A connection opens with an exchange of versions, each acknowledged by a verack; only then may
anything else be said, and neither may be repeated. A disconnect notice is welcome at any time. The
state only moves forward.
-/

namespace PeerNet

/-- How far a connection has come. -/
inductive HandshakeState
  | awaitingVersion
  | awaitingVerack
  | ready
  | stopped
  deriving DecidableEq, Repr

namespace HandshakeState

/-- The words for each state. -/
def text : HandshakeState → String
  | awaitingVersion => "awaiting version"
  | awaitingVerack => "awaiting verack"
  | ready => "ready"
  | stopped => "stopped"

/-- The place of each state in the life of a connection. -/
def rank : HandshakeState → Nat
  | awaitingVersion => 0
  | awaitingVerack => 1
  | ready => 2
  | stopped => 3

end HandshakeState

/-- What is done with a command. -/
inductive GateDecision
  /-- Take over the remote's version. -/
  | acceptVersion
  /-- The handshake is complete. -/
  | acceptVerack
  /-- Do what the command asks. -/
  | dispatch
  /-- Take note of the farewell. -/
  | disconnect
  /-- Nothing is done any more. -/
  | ignore
  /-- The command is not allowed; the connection ends. -/
  | violation
  deriving DecidableEq, Repr

/-- The name of each decision. -/
def GateDecision.name : GateDecision → String
  | acceptVersion => "AcceptVersion"
  | acceptVerack => "AcceptVerack"
  | dispatch => "Dispatch"
  | disconnect => "Disconnect"
  | ignore => "Ignore"
  | violation => "Violation"

/-- What is done with a command in a state. -/
def gate : HandshakeState → Command → GateDecision
  | .stopped, _ => .ignore
  | _, .disconnect => .disconnect
  | .awaitingVersion, .version => .acceptVersion
  | .awaitingVerack, .verack => .acceptVerack
  | .ready, .version => .violation
  | .ready, .verack => .violation
  | .ready, _ => .dispatch
  | _, _ => .violation

/-- A command that the state does not allow. -/
structure ProtocolViolation where
  state : HandshakeState
  command : Command
  deriving DecidableEq, Repr

/-- The text shown for a command that is not allowed. -/
def ProtocolViolation.message (v : ProtocolViolation) : String :=
  v.command.name ++ " not allowed while " ++ v.state.text

end PeerNet
