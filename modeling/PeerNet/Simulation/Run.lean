import PeerNet.Simulation.Basic

/-!
# Acting in a simulated world

What the remotes do, what the owner of the node asks of it, and what can be seen. A remote is known
by its name. Once the node has stopped, whatever is asked of it is refused.
-/

namespace PeerNet.Simulation

/-! ### The remotes -/

/-- Changes the line to a remote. -/
def atRemote (s : Simulation) (name : String) (f : Line → Line) : Simulation :=
  { s with lines := s.lines.map fun l => if l.name = some name then f l else l }

/-- The line to a remote. -/
def line? (s : Simulation) (name : String) : Option Line := s.lines.find? (·.name = some name)

/-- How a remote comes to the node. -/
structure Approach where
  name : String
  remote : Endpoint
  direction : Direction
  /-- How many bytes each pipe of its line holds. -/
  capacity : Nat
  /-- Whether the remote reads nothing at first. -/
  stalled : Bool
  /-- Whether the remote is gone before the node notices it. -/
  dead : Bool

/-- The node's end of a new line, and what the others hear of it. -/
def receive (s : Simulation) (effects : List ManagerEffect) : LocalEnd × List SessionEffect :=
  let now := s.moment.now
  match effects with
  | .accepted peer :: _ =>
    let (c, started) := Connection.start s.settings s.ledger s.moment.unixTime
    (.connection peer c none (now + s.settings.timerInterval), started)
  | .rejected (some d) :: _ =>
    (.notice ⟨(Message.disconnect d).encode, now + rejectionTimeout⟩, [])
  | _ => (.closed, [])

/-- A remote comes to the node; the answer is the number of its connection, if it got one. A remote
that was known by the same name is gone from then on. -/
def connect (s : Simulation) (a : Approach) : Simulation × Except NodeError (Option PeerId) :=
  let (s, effects) := s.heardOut.command (.connect a.remote a.direction)
  let (localEnd, started) := s.receive effects
  let l := Line.start a.name localEnd a.capacity a.stalled
  let l := if a.dead then l.leave else l
  let l := started.foldl (Line.apply s.moment.now) l
  let l := match localEnd with
    | .closed => l.hangUp
    | .connection _ _ _ _ | .notice _ => l
  let s := s.atRemote a.name Line.forget
  (settle { s with lines := s.lines ++ [l] },
    if s.manager.isStopped then .error .stopped else .ok l.peer?)

/-- Lets time pass until a remote has nothing left to send. -/
def waitForSending (name : String) : Nat → Simulation → Simulation
  | 0, s => s
  | patience + 1, s =>
    match s.wait? with
    | some wait =>
      if (s.line? name).any (!·.remote.unsent.isEmpty) then
        waitForSending name patience (s.elapse wait).ring
      else s
    | none => s

/-- A remote sends bytes, however long that takes; the answer tells whether the stream took them. -/
def send (s : Simulation) (name : String) (bs : Bytes) : Simulation × Bool :=
  let s := s.atRemote name fun l =>
    let gone := l.remote.gone
    { l with remote := { l.remote with unsent := if gone then [] else bs, refused := gone } }
  let s := waitForSending name patience s.settle
  (s, (s.line? name).any (!·.remote.refused))

/-- A remote closes its end. -/
def close (s : Simulation) (name : String) : Simulation := (s.atRemote name Line.leave).settle

/-- A remote begins to read. -/
def unstall (s : Simulation) (name : String) : Simulation :=
  (s.atRemote name fun l => { l with remote := { l.remote with stalled := false } }).settle

/-! ### The owner of the node -/

/-- Tells the node something. -/
def tell (s : Simulation) (c : ManagerCommand) : Simulation × Except NodeError Unit :=
  if s.manager.isStopped then (s, .error .stopped)
  else (settle { s with inbox := s.inbox ++ [c] }, .ok ())

/-- Asks the node something; whatever it was told before comes first. -/
def ask {α : Type} (s : Simulation) (question : Manager → α) : Except NodeError α :=
  let m := s.heardOut.manager
  if m.isStopped then .error .stopped else .ok (question m)

/-- Asks the node to stop. -/
def shutdown (s : Simulation) : Simulation :=
  if s.manager.isStopped then { s with calls := s.calls ++ [ShutdownCall.refused] }
  else
    settle { s with
      calls := s.calls ++ [ShutdownCall.waiting]
      inbox := s.inbox ++ [ManagerCommand.shutdown s.calls.length] }

/-! ### What can be seen -/

/-- What there is to be seen. -/
structure News where
  /-- What each remote got: messages, and failures of frames that it could not use. -/
  received : List (String × List (Except TransportError Message))
  /-- The remotes that found their stream ended, by name. -/
  ended : List String
  /-- The live connections. -/
  peers : Except NodeError (List (PeerId × PeerEntry))
  /-- What was reported since somebody last looked, peer by peer. -/
  reports : List (PeerId × TaskReport)

/-- A remote reads what has arrived, and whoever waited for that joins the queue. -/
def readAt (s : Simulation) (place : Nat) : Simulation × List (Except TransportError Message) :=
  match s.lines[place]? with
  | none => (s, [])
  | some l =>
    let (l, results) := l.takeIn
    ({ s with lines := s.lines.set place l }.enlist, results)

/-- The remotes and the places of their lines, in the order of their names. -/
def remotes (s : Simulation) : List (String × Nat) :=
  (s.lines.zipIdx.filterMap fun (l, place) => l.name.map (·, place)).mergeSort
    fun a b => a.1 ≤ b.1

/-- The remotes read one after the other, in the order of their names. -/
def readAll (s : Simulation) : Simulation × List (String × List (Except TransportError Message)) :=
  s.remotes.foldl
    (fun (s, taken) (name, place) =>
      let (s, results) := s.readAt place
      (s, taken ++ [(name, results)]))
    (s, [])

/-- Has the remotes read, and looks at everything. What is due now is done after that, and a write
of the node that was waiting for a remote to read goes on; but those who come to rest meanwhile are
not waited for. -/
def look (s : Simulation) : Simulation × News :=
  let peers := s.ask fun m => m.registry.peers
  let (s, taken) := s.readAll
  let received := taken.map fun (name, results) => (name, results.filter (!Line.isEnd ·))
  let s := { s with inbox := s.inbox ++ [ManagerCommand.inspect] }.alert.round
  ({ s with reports := [] }.newRound, {
    received := received.filter fun (_, results) => !results.isEmpty
    ended := (taken.filter fun (_, results) => results.any Line.isEnd).map Prod.fst
    peers
    reports := s.reports.mergeSort fun a b => a.1.number ≤ b.1.number })

end PeerNet.Simulation
