import PeerNet.Manager.Basic
import PeerNet.Session.Connection
import PeerNet.Simulation.Pipe

/-!
# Lines

A line joins the node to one remote by a pipe in each direction. At the node's end there is a
connection, or only a notice being written to a remote that was turned away. A remote reads what has
arrived when it is time to, unless it is stalled, and sends what it is given as soon as there is
room.

Whoever acts at the node's end makes one move at a time (`Line.move?`), which tells what the rest of
the node hears of it and how many efforts it takes, or is `none` when it would change nothing.
`isSome_move?` says that `Line.canMove` foresees this without making the move.
-/

namespace PeerNet

/-- What the rest of the node hears of a line. -/
inductive LineOutput
  | tell (c : ManagerCommand)
  | report (peer : PeerId) (r : TaskReport)

/-- The node's end of a line. -/
inductive LocalEnd
  /-- A live connection, the write that it waits for, and when its timer goes off next. -/
  | connection (peer : PeerId) (c : Connection) (writing : Option Writing) (nextTimer : Nat)
  /-- The notice to a remote that was turned away. -/
  | notice (writing : Writing)
  | closed

/-- The remote's end of a line. -/
structure RemoteEnd where
  /-- Whether the remote has closed its end. -/
  gone : Bool
  /-- Whether the remote reads nothing. -/
  stalled : Bool
  /-- Bytes to send for which there was no room yet. -/
  unsent : Bytes
  /-- Whether the stream refused bytes. -/
  refused : Bool
  reader : FrameReader
  /-- Whether the remote found the stream ended. -/
  ended : Bool

/-- The remote's end of a new line. -/
def RemoteEnd.start (stalled : Bool) : RemoteEnd where
  gone := false
  stalled
  unsent := []
  refused := false
  reader := .start
  ended := false

/-- A stream between the node and a remote. -/
structure Line where
  /-- How the remote is called, unless its name has gone to another. -/
  name : Option String
  localEnd : LocalEnd
  remote : RemoteEnd
  toNode : Pipe
  toRemote : Pipe

namespace Line

/-- A new line whose pipes have the given capacity. -/
def start (name : String) (localEnd : LocalEnd) (capacity : Nat) (stalled : Bool) : Line :=
  ⟨some name, localEnd, .start stalled, .ofCapacity capacity, .ofCapacity capacity⟩

/-- The connection at the node's end, if there is one. -/
def peer? (l : Line) : Option PeerId :=
  match l.localEnd with
  | .connection peer _ _ _ => some peer
  | .notice _ | .closed => none

/-- Closes the node's end. -/
def hangUp (l : Line) : Line :=
  { l with localEnd := .closed, toNode := l.toNode.abandon, toRemote := l.toRemote.close }

/-- Closes the remote's end. -/
def leave (l : Line) : Line :=
  { l with
    remote := { l.remote with gone := true, unsent := [] }
    toNode := l.toNode.close
    toRemote := l.toRemote.abandon }

/-- The line when its remote's name goes to another: nobody holds the remote's end any more. -/
def forget (l : Line) : Line := { l.leave with name := none }

/-- One thing that a session does at its line: it begins to write, or closes the stream. -/
def apply (now : Nat) (l : Line) : SessionEffect → Line
  | .write m =>
    match l.localEnd with
    | .connection peer c _ nextTimer =>
      let writing : Writing := ⟨m.encode, now + Session.writeTimeout⟩
      { l with localEnd := .connection peer c (some writing) nextTimer }
    | .notice _ | .closed => l
  | .close => l.hangUp
  | .notify _ | .report _ => l

/-- What the others hear of a session's effect. -/
def heard (peer : PeerId) : SessionEffect → List LineOutput
  | .notify n => [.tell (.notice peer n)]
  | .report r => [.report peer r]
  | .write _ | .close => []

/-! ### Moves at the node's end -/

/-- Who acts at the node's end of a line. -/
inductive Role
  /-- Reads the stream, and offers what it has read to the mailbox. -/
  | intake
  /-- Takes up what waits for the connection. -/
  | session
  /-- Writes the notice to a remote that was turned away. -/
  | notice
  deriving DecidableEq

/-- Everybody who may act at a line. -/
def Role.all : List Role := [.intake, .session, .notice]

/-- What a move at the node's end comes to. -/
structure Move where
  line : Line
  /-- What the rest of the node hears of it. -/
  heard : List LineOutput
  /-- How many efforts it takes. -/
  effort : Nat

/-- Everything that a session takes up is an effort, except what waits in its own mailbox. -/
def effort : SessionInput → Nat
  | .item _ => 0
  | .written _ | .answer _ | .command _ | .handshakeTimeout | .readerFinished => 1

/-- The intake reads or offers a message; a read of the stream is an effort. -/
def moveIntake (l : Line) : Option Move :=
  match l.localEnd with
  | .connection peer c writing nextTimer =>
    if c.intake.mustWait l.toNode.inlet c.mailbox then none
    else
      let effort := if c.intake.needsStream then 1 else 0
      let (intake, inlet, mailbox) := c.intake.step l.toNode.inlet c.mailbox
      let localEnd := .connection peer { c with intake, mailbox } writing nextTimer
      some ⟨{ l with localEnd, toNode := { l.toNode with inlet } }, [], effort⟩
  | .notice _ | .closed => none

/-- The session takes up one thing, or goes on with its write. -/
def moveSession (settings : Settings) (ledger : Ledger) (moment : Moment) (l : Line) :
    Option Move :=
  match l.localEnd with
  | .connection peer c writing nextTimer =>
    let take (l : Line) (c : Connection) (input : SessionInput) : Move :=
      let (c, effects) := c.advance settings ledger moment input
      let l := { l with localEnd := .connection peer c none nextTimer }
      ⟨effects.foldl (apply moment.now) l, effects.flatMap (heard peer), effort input⟩
    match writing with
    | some w =>
      (w.proceed? l.toRemote moment.now).map fun
        | (toRemote, .over complete) => take { l with toRemote } c (.written complete)
        | (toRemote, .underWay w) =>
          ⟨{ l with localEnd := .connection peer c (some w) nextTimer, toRemote }, [], 1⟩
    | none => (c.next? moment.now).map fun (input, c) => take l c input
  | .notice _ | .closed => none

/-- The notice to a remote that was turned away is written; the stream is closed after it. -/
def moveNotice (now : Nat) (l : Line) : Option Move :=
  match l.localEnd with
  | .notice w =>
    (w.proceed? l.toRemote now).map fun
      | (toRemote, .over _) => ⟨{ l with toRemote }.hangUp, [.tell .rejectionFinished], 1⟩
      | (toRemote, .underWay w) => ⟨{ l with localEnd := .notice w, toRemote }, [], 1⟩
  | .connection _ _ _ _ | .closed => none

/-- One move at the node's end. -/
def move? (settings : Settings) (ledger : Ledger) (moment : Moment) (l : Line) :
    Role → Option Move
  | .intake => l.moveIntake
  | .session => l.moveSession settings ledger moment
  | .notice => l.moveNotice moment.now

/-- Whether somebody at the node's end can make a move. -/
def canMove (now : Nat) (l : Line) (r : Role) : Bool :=
  match r, l.localEnd with
  | .intake, .connection _ c _ _ => !c.intake.mustWait l.toNode.inlet c.mailbox
  | .session, .connection _ _ (some w) _ => !w.mustWait l.toRemote now
  | .session, .connection _ c none _ => (c.next? now).isSome
  | .notice, .notice w => !w.mustWait l.toRemote now
  | .intake, .notice _ | .session, .notice _ | .notice, .connection _ _ _ _ | _, .closed => false

/-- The move of a role is there just when the role can move. -/
theorem isSome_move? (settings : Settings) (ledger : Ledger) (moment : Moment) (l : Line)
    (r : Role) : (l.move? settings ledger moment r).isSome = l.canMove moment.now r := by
  cases r with
  | intake =>
    cases h : l.localEnd with
    | connection peer c writing nextTimer =>
      by_cases hw : c.intake.mustWait l.toNode.inlet c.mailbox <;>
        simp [move?, canMove, moveIntake, h, hw]
    | notice w => simp [move?, canMove, moveIntake, h]
    | closed => simp [move?, canMove, moveIntake, h]
  | session =>
    cases h : l.localEnd with
    | connection peer c writing nextTimer =>
      cases writing <;> simp [move?, canMove, moveSession, h, Writing.isSome_proceed?]
    | notice w => simp [move?, canMove, moveSession, h]
    | closed => simp [move?, canMove, moveSession, h]
  | notice =>
    cases h : l.localEnd with
    | connection peer c writing nextTimer => simp [move?, canMove, moveNotice, h]
    | notice w => simp [move?, canMove, moveNotice, h, Writing.isSome_proceed?]
    | closed => simp [move?, canMove, moveNotice, h]

/-- Whether somebody at the node's end goes on only with another effort in hand. A session does
not even look for something to do without one. -/
def needsEffort (l : Line) (r : Role) : Bool :=
  match r, l.localEnd with
  | .intake, .connection _ c _ _ => c.intake.needsStream
  | .session, .connection _ _ _ _ | .notice, .notice _ => true
  | .intake, .notice _ | .session, .notice _ | .notice, .connection _ _ _ _ | _, .closed => false

/-! ### The remote -/

/-- Whether the remote reads at all. -/
def isRead (l : Line) : Bool := !(l.remote.gone || l.remote.stalled || l.remote.ended)

/-- Whether a result of reading is the end of the stream. -/
def isEnd : Except TransportError Message → Bool
  | .error e => e.isEnd
  | .ok _ => false

/-- The remote reads what has arrived, up to a frame that it cannot use, and finds the stream ended
if it is. -/
def takeIn (l : Line) : Line × List (Except TransportError Message) :=
  if l.isRead then
    let size := l.toRemote.inlet.arrived.length
    let (reader, inlet, results) :=
      l.remote.reader.collect size (size + 1) l.toRemote.inlet
    let remote := { l.remote with reader, ended := results.any isEnd }
    ({ l with remote, toRemote := { l.toRemote with inlet } }, results)
  else (l, [])

/-- Whether the remote has bytes to send, and the stream takes or refuses them. -/
def canSend (l : Line) : Bool :=
  !l.remote.unsent.isEmpty && (l.toNode.isBroken || l.toNode.room != 0)

/-- The remote sends as many bytes as there is room for. -/
def sendOn (l : Line) : Line :=
  if l.remote.unsent.isEmpty then l
  else if l.toNode.isBroken then
    { l with remote := { l.remote with unsent := [], refused := true } }
  else
    let (toNode, unsent) := l.toNode.put l.remote.unsent
    { l with toNode, remote := { l.remote with unsent } }

/-! ### The clock -/

/-- The times at which something at the line is due. -/
def due (l : Line) : List Nat :=
  match l.localEnd with
  | .connection _ c writing nextTimer =>
    nextTimer :: (c.handshakeDeadline.toList ++ (writing.map Writing.deadline).toList)
  | .notice w => [w.deadline]
  | .closed => []

/-- Puts a timer item into the mailbox when that is due. -/
def ring (settings : Settings) (now : Nat) (l : Line) : Line :=
  match l.localEnd with
  | .connection peer c writing nextTimer =>
    if nextTimer ≤ now then
      let c := { c with mailbox := (c.mailbox.push .timer).1 }
      { l with localEnd := .connection peer c writing (now + settings.timerInterval) }
    else l
  | .notice _ | .closed => l

/-- Leaves a command or an answer of the manager at a connection. -/
def deliver (l : Line) (f : Connection → Connection) : Line :=
  match l.localEnd with
  | .connection peer c writing nextTimer =>
    { l with localEnd := .connection peer (f c) writing nextTimer }
  | .notice _ | .closed => l

end Line

end PeerNet
