import PeerNet.Frame.Error
import PeerNet.Manager.Step
import PeerNet.Simulation.Line

/-!
# A node in a simulated world

The world holds one node, the remotes that it is joined to by lines, and a clock that moves only
when it is told to. Nothing in it is left to chance. Whoever becomes able to make a move joins a
queue, and whoever is at its head goes on until it has to wait (`Simulation.proceed?`), so that in
everything the first to be called is the first to act. An attempt to connect to a remote always
fails, since there is nobody to be reached but those who come by themselves.

Nobody can keep the others from acting for long. There are `Simulation.turnLength` efforts in a
turn, and whoever has used them up rests until the next round. There are at most
`Simulation.roundLength` turns in a round, and fewer if the queue is empty before. Between two
rounds the remotes go on with what they are sending.

Time passes from one due moment to the next, and whatever is due or follows from it is done before
the clock moves on.
-/

namespace PeerNet

/-- How far a call for the node to stop has come. -/
inductive ShutdownCall
  | waiting
  | done
  | refused
  deriving DecidableEq, Repr

/-- Whoever acts in the node. -/
inductive Party
  | manager
  /-- Somebody at the line that came to be at the given place. -/
  | atLine (place : Nat) (role : Line.Role)
  deriving DecidableEq

/-- A node, its remotes, and the time. -/
structure Simulation where
  ledger : Ledger
  manager : Manager
  /-- What the manager has been told and has not taken up yet, oldest first. -/
  inbox : List ManagerCommand
  /-- The lines, in the order in which they came to be. -/
  lines : List Line
  /-- Those who can make a move, in the order in which they became able to. -/
  queue : List Party
  /-- How many more efforts the head of the queue can make in its turn. -/
  efforts : Nat
  /-- How many turns the present round has seen. -/
  turns : Nat
  /-- Those who make no more efforts in the present round, longest at rest first. -/
  resting : List Party
  /-- The present time. -/
  moment : Moment
  /-- When the node looks for more connections next. -/
  nextTick : Nat
  /-- What was reported since somebody last looked, oldest first. -/
  reports : List (PeerId × TaskReport)
  /-- The calls for the node to stop. -/
  calls : List ShutdownCall

namespace Simulation

/-- How many bytes a pipe holds unless something else is said. -/
def standardCapacity : Nat := 16 * 1024 * 1024

/-- How long a notice to a rejected stream may take, in milliseconds. -/
def rejectionTimeout : Nat := 5000

/-- How many efforts there are in a turn. -/
def turnLength : Nat := 128

/-- How many turns there are in a round. -/
def roundLength : Nat := 61

/-- A bound on the moves made at one moment, far above what a finite exchange needs. -/
def patience : Nat := 10000000

/-- The settings of the node. -/
def settings (s : Simulation) : Settings := s.manager.settings

/-! ### Moves -/

/-- Takes note of what is heard of a line. -/
def hear (s : Simulation) : LineOutput → Simulation
  | .tell c => { s with inbox := s.inbox ++ [c] }
  | .report peer r => { s with reports := s.reports ++ [(peer, r)] }

/-- Changes the connection with a number, if it is live. -/
def atConnection (s : Simulation) (peer : PeerId) (f : Connection → Connection) : Simulation :=
  { s with lines := s.lines.map fun l => if l.peer? = some peer then l.deliver f else l }

/-- Does what the manager wants done. -/
def apply (s : Simulation) : ManagerEffect → Simulation
  | .answer peer a => s.atConnection peer fun c => { c with answer := some a }
  | .command peer command =>
    s.atConnection peer fun c => { c with commands := c.commands ++ [command] }
  | .dial endpoint => s.hear (.tell (.dialFinished endpoint))
  | .report peer r => s.hear (.report peer r)
  | .stopped callers =>
    { s with calls := s.calls.mapIdx fun i call =>
        if callers.contains i then .done else if call = .waiting then .refused else call }
  | .accepted _ | .rejected _ => s

/-- The manager takes up one command. -/
def command (s : Simulation) (c : ManagerCommand) : Simulation × List ManagerEffect :=
  let (manager, effects) := s.manager.step .first s.moment c
  (effects.foldl apply { s with manager }, effects)

/-- The world once the manager has taken up everything that it has been told so far. -/
def heardOut (s : Simulation) : Simulation :=
  s.inbox.foldl (fun s c => (s.command c).1) { s with inbox := [] }

/-! ### Turns -/

/-- Everybody in the node, line by line, and the manager last. -/
def parties (s : Simulation) : List Party :=
  (List.range s.lines.length).flatMap (fun place => Line.Role.all.map (Party.atLine place))
    ++ [.manager]

/-- Whether a party can make a move. -/
def canMove (s : Simulation) : Party → Bool
  | .manager => !s.inbox.isEmpty
  | .atLine place role => s.lines[place]?.any (·.canMove s.moment.now role)

/-- Whether a party goes on only with another effort in hand. -/
def needsEffort (s : Simulation) : Party → Bool
  | .manager => true
  | .atLine place role => s.lines[place]?.any (·.needsEffort role)

/-- One move of a party, or `none` if it has to wait. -/
def move? (s : Simulation) : Party → Option Simulation
  | .manager =>
    match s.inbox with
    | [] => none
    | c :: inbox => some ({ s with inbox, efforts := s.efforts - 1 }.command c).1
  | .atLine place role => do
    let l ← s.lines[place]?
    let m ← l.move? s.settings s.ledger s.moment role
    return m.heard.foldl hear
      { s with lines := s.lines.set place m.line, efforts := s.efforts - m.effort }

/-- Whoever can make a move, and neither waits in the queue nor rests, joins the queue. -/
def enlist (s : Simulation) : Simulation :=
  { s with queue := s.queue ++ s.parties.filter fun p =>
      s.canMove p && !s.queue.contains p && !s.resting.contains p }

/-- What happens at the head of the queue: it makes a move, or its turn ends since it has to wait or
to rest. It is `none` if the queue is empty. -/
def proceed? (s : Simulation) : Option Simulation :=
  match s.queue with
  | [] => none
  | p :: queue =>
    let ended := { s with queue, efforts := turnLength, turns := s.turns + 1 }
    if s.efforts = 0 ∧ s.needsEffort p then some { ended with resting := s.resting ++ [p] }
    else some ((s.move? p).elim ended enlist)

/-- A new round begins: those who rest join the queue again, and after them whoever has something to
do because a remote goes on with sending. -/
def newRound (s : Simulation) : Simulation :=
  { s with
    queue := s.queue ++ s.resting
    resting := []
    turns := 0
    lines := s.lines.map Line.sendOn }.enlist

/-- What happens next in the present round, which is over when the queue is empty or the round has
seen its turns. -/
def inRound? (s : Simulation) : Option Simulation :=
  if s.turns < roundLength then s.proceed? else none

/-- What happens next, in the present round or with a new one. -/
def next? (s : Simulation) : Option Simulation :=
  match s.inRound? with
  | some s => some s
  | none =>
    if s.queue.isEmpty && s.resting.isEmpty && !s.lines.any Line.canSend then none
    else some s.newRound

/-- One thing after the other, until nothing happens any more. -/
def runWithin (happens? : Simulation → Option Simulation) : Nat → Simulation → Simulation
  | 0, s => s
  | patience + 1, s =>
    match happens? s with
    | none => s
    | some s => runWithin happens? patience s

/-- The world after one round. -/
def round (s : Simulation) : Simulation := runWithin inRound? patience s.newRound

/-- The world when nobody can move any more. -/
def settle (s : Simulation) : Simulation := runWithin next? patience s.newRound

/-! ### The clock -/

/-- The times at which something is due. -/
def due (s : Simulation) : List Nat :=
  (if s.manager.isRunning then [s.nextTick] else []) ++ s.lines.flatMap Line.due

/-- How long it takes until something is due, if anything is. -/
def wait? (s : Simulation) : Option Nat :=
  ((s.due.filter (s.moment.now < ·)).map (· - s.moment.now)).min?

/-- The world a while later, as if nothing were due. -/
def elapse (s : Simulation) (ms : Nat) : Simulation :=
  { s with moment := { s.moment with now := s.moment.now + ms } }

/-- Calls those for whom something is due. -/
def alert (s : Simulation) : Simulation :=
  let now := s.moment.now
  let s := { s with lines := s.lines.map (Line.ring s.settings now) }
  if s.manager.isRunning && s.nextTick ≤ now then
    { s with
      inbox := s.inbox ++ [ManagerCommand.tick]
      nextTick := now + s.settings.peerTimerInterval }
  else s

/-- Does what is due, and all that follows from it. -/
def ring (s : Simulation) : Simulation := s.alert.settle

/-- Lets time pass. What is due at the very end is left undone: whoever acts then comes first. -/
def pass (s : Simulation) (ms : Nat) : Simulation :=
  let s := s.ring
  match s.wait? with
  | none => s.elapse ms
  | some wait => if 0 < wait ∧ wait < ms then (s.elapse wait).pass (ms - wait) else s.elapse ms
termination_by ms

/-- A world in which a node has just started. -/
def start (settings : Settings) (ledger : Ledger) (unixTime : UInt32) : Simulation :=
  ring {
    ledger
    manager := .start settings
    inbox := []
    lines := []
    queue := []
    efforts := turnLength
    turns := 0
    resting := []
    moment := ⟨0, unixTime⟩
    nextTick := 0
    reports := []
    calls := [] }

end Simulation

end PeerNet
