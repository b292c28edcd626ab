import PeerNet.Handler.Run
import PeerNet.Session.Basic

/-!
# Sessions at work

`Session.start` opens a connection with the local version, and `Session.step` takes up one thing
that happens. Whatever ends a session ends it in the same way: the stream is closed, the end is
reported if the peer was ever reported as ready, and the manager hears of it last.
-/

namespace PeerNet.Session

/-- A new session, and the write of the local version with which it opens. -/
def start (settings : Settings) (ledger : Ledger) (unixTime : UInt32) :
    Session × List SessionEffect :=
  (⟨.start ledger settings.pendingTimeout, .opening, [], false⟩,
    [.write (.version (settings.identity.version ledger.height unixTime))])

/-- The end of a session. -/
def finish (s : Session) : Session × List SessionEffect :=
  ({ s with handler := s.handler.stop, phase := .over, agenda := [] },
    .close :: (if s.announced then [.report .peerDisconnected] else [])
      ++ [.notify .disconnected])

/-- Begins the farewell. -/
def part (s : Session) (reason : DisconnectReason) : Session × List SessionEffect :=
  ({ s with handler := s.handler.stop, phase := .parting, agenda := [] },
    [.write (.disconnect (.plain reason))])

/-- Puts an effect in front of what a session does. -/
def first (effect : SessionEffect) (done : Session × List SessionEffect) :
    Session × List SessionEffect :=
  (done.1, effect :: done.2)

/-- Carries out events in order, up to the first that has to wait for something. -/
def carryOut (s : Session) : List HandlerEvent → Session × List SessionEffect
  | [] => ({ s with phase := .idle, agenda := [] }, [])
  | .send m :: rest => ({ s with phase := .writing, agenda := rest }, [.write m])
  | .versionReceived v :: rest =>
    ({ s with phase := .awaitingVerdict, agenda := rest }, [.notify (.introduced v)])
  | .addressRequest :: rest =>
    ({ s with phase := .awaitingAddresses, agenda := rest }, [.notify .addressRequest])
  | .ready v :: rest =>
    first (.report (.peerReady v))
      (first (.notify .ready) ({ s with announced := true }.carryOut rest))
  | .filterChanged f :: rest => first (.notify (.filterChanged f)) (s.carryOut rest)
  | .peers records :: rest => first (.notify (.suggested records)) (s.carryOut rest)
  | .relay inventory :: rest => first (.notify (.delivered inventory)) (s.carryOut rest)
  | .remoteHeight height :: rest => first (.notify (.remoteHeight height)) (s.carryOut rest)
  | .stop :: _ => s.finish

/-- Goes on with the agenda. -/
def resume (s : Session) : Session × List SessionEffect := s.carryOut s.agenda

/-- Writes a message, and goes on with the agenda afterwards. -/
def send (s : Session) (m : Message) : Session × List SessionEffect :=
  ({ s with phase := .writing }, [.write m])

/-- Takes up an item of the mailbox; a violation ends the session without a word. -/
def onItem (s : Session) (ledger : Ledger) (moment : Moment) (i : MailboxItem) :
    Session × List SessionEffect :=
  match s.handler.handle ledger moment i with
  | .violation handler _ => { s with handler }.finish
  | .done r =>
    let (s, effects) := { s with handler := r.handler }.carryOut r.events
    (s, r.reports.map SessionEffect.report ++ effects)

/-- Takes up a command of the manager. -/
def onCommand (s : Session) : SessionCommand → Session × List SessionEffect
  | .send m => if s.isReady then s.send m else (s, [])
  | .relay kind hash =>
    match s.handler.relay kind hash with
    | (handler, some m) => { s with handler }.send m
    | (handler, none) => ({ s with handler }, [])
  | .disconnect reason => s.part reason

/-- Takes up an answer of the manager; with no addresses to suggest the session stays silent. -/
def onAnswer (s : Session) : ManagerAnswer → Session × List SessionEffect
  | .verdict (.ok ()) => s.send .verack
  | .verdict (.error reason) => s.part reason
  | .addresses [] => s.resume
  | .addresses records => s.send (.addr records)

/-- What a session makes of one thing that happens. What its phase has no use for changes
nothing. -/
def step (s : Session) (ledger : Ledger) (moment : Moment) (input : SessionInput) :
    Session × List SessionEffect :=
  match s.phase, input with
  | .opening, .written true => ({ s with phase := .idle }, [])
  | .writing, .written true => s.resume
  | .opening, .written false | .writing, .written false | .parting, .written _ => s.finish
  | .awaitingVerdict, .answer (.verdict v) => s.onAnswer (.verdict v)
  | .awaitingAddresses, .answer (.addresses records) => s.onAnswer (.addresses records)
  | .idle, .command c => s.onCommand c
  | .idle, .item i => s.onItem ledger moment i
  | .idle, .handshakeTimeout => if s.isReady then (s, []) else s.part .connectionTimeout
  | .idle, .readerFinished => s.finish
  | _, _ => (s, [])

end PeerNet.Session
