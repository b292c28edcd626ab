import PeerNet.Session.Intake
import PeerNet.Session.Step

/-!
# Live connections

A connection is a session together with everything that waits for it. An idle session turns to what
matters most: a command of the manager comes before the mailbox, the mailbox before the end of the
time for the handshake, and only when nothing else is left the end of the stream is noticed. So
whatever was read before the stream ended is handled first.
-/

namespace PeerNet

/-- A session and what waits for it. -/
structure Connection where
  session : Session
  /-- Commands of the manager, oldest first. -/
  commands : List SessionCommand
  /-- The answer of the manager, once it is there. -/
  answer : Option ManagerAnswer
  mailbox : Mailbox
  intake : Intake
  /-- When the time for the handshake is up; it runs from the first idle moment. -/
  handshakeDeadline : Option Nat

namespace Connection

/-- A new connection, and what its session does at once. -/
def start (settings : Settings) (ledger : Ledger) (unixTime : UInt32) :
    Connection × List SessionEffect :=
  let (session, effects) := Session.start settings ledger unixTime
  (⟨session, [], none, .ofCapacity settings.mailboxCapacity, .start, none⟩, effects)

/-- What an idle session turns to next. -/
def choose (c : Connection) (now : Nat) : Option (SessionInput × Connection) :=
  match c.commands, c.mailbox.receive with
  | command :: commands, _ => some (.command command, { c with commands })
  | [], (mailbox, some i) => some (.item i, { c with mailbox })
  | [], (_, none) =>
    if !c.session.isReady && c.handshakeDeadline.any (· ≤ now) then some (.handshakeTimeout, c)
    else if c.intake = .finished then some (.readerFinished, c)
    else none

/-- What the session takes up next, unless it has to wait for a write or has nothing to do. -/
def next? (c : Connection) (now : Nat) : Option (SessionInput × Connection) :=
  match c.session.phase with
  | .idle => c.choose now
  | .awaitingVerdict | .awaitingAddresses =>
    c.answer.map fun a => (.answer a, { c with answer := none })
  | .opening | .writing | .parting | .over => none

/-- The connection after one thing happened to its session. The time for the handshake starts to
run when the local version is out, and a session that is over takes no more messages. -/
def advance (c : Connection) (settings : Settings) (ledger : Ledger) (moment : Moment)
    (input : SessionInput) : Connection × List SessionEffect :=
  let (session, effects) := c.session.step ledger moment input
  ({ c with
      session
      mailbox := if session.isOver then c.mailbox.close else c.mailbox
      handshakeDeadline :=
        if c.handshakeDeadline.isNone && session.phase == .idle then
          some (moment.now + settings.handshakeTimeout)
        else c.handshakeDeadline },
    effects)

end Connection

end PeerNet
