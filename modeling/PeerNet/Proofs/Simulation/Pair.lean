import PeerNet.Ledger.Memory
import PeerNet.Proofs.Session.Hearing
import PeerNet.Proofs.Simulation.Moves

/-!
# Two nodes complete the handshake

Two sessions stand at the ends of one stream, each at a line of its own: the pipe that leads to the
one comes from the other (`Pair`).  They take their steps in any order, and so do their intakes,
their timers and their managers, as long as nothing goes wrong (`Line.Event.isSmooth`).

What carries the argument is what one of them hears of the other (`Heard`): the messages that are on
their way, from the write under way to the mailbox, are what its handler still has to hear.  So
neither commits a violation in the eyes of the other, and once nothing is on its way any more and
both have nothing to do, neither can wait for an acknowledgement: the other would not have sent one,
and so would wait for a version that has been sent.
-/

namespace PeerNet

namespace Line

open Session (Turn)

/-- Whether something happens at a line that is as it should be.  What the pipes bring is up to the
other end. -/
def Event.isSmooth (l : Line) : Event → Bool
  | .intake | .ring _ => true
  | .session ledger moment => (l.turn? ledger moment).all (·.input.isSmooth)
  | .command c => (SessionInput.command c).isSmooth
  | .answer a => (SessionInput.answer a).isSmooth
  | .inbound _ | .outbound _ => false

/-- A turn at a smooth event is smooth. -/
lemma isSmooth_of_turn? {l : Line} {ledger : Ledger} {moment : Moment} {t : Turn}
    (hsmooth : (Event.session ledger moment).isSmooth l = true)
    (hturn : l.turn? ledger moment = some t) : t.input.isSmooth = true := by
  rw [Event.isSmooth, hturn] at hsmooth
  exact hsmooth

/-- Whether the session of a line waits for something to do, with nothing in its mailbox, on the
pipe to it or in its intake, nor a write under way.  An intake that is finished would be something
to do. -/
def isAtRest (l : Line) : Bool :=
  match l.localEnd with
  | .connection _ ⟨session, _, _, mailbox, .reading reader, _⟩ none _ =>
    session.phase == .idle && mailbox.queued.isEmpty && reader.received.isEmpty &&
      l.toNode.inlet.arrived.isEmpty
  | .connection _ _ _ _ | .notice _ | .closed => false

/-- At rest, the session is idle, its mailbox is empty, and its reader waits for a frame of which
nothing has arrived. -/
lemma exists_of_isAtRest {l : Line} (h : l.isAtRest = true) :
    ∃ peer c nextTimer reader, l.localEnd = .connection peer c none nextTimer ∧
      c.session.phase = .idle ∧ c.mailbox.queued = [] ∧ c.intake = .reading reader ∧
      reader.received = [] ∧ l.toNode.inlet.arrived = [] := by
  rw [isAtRest] at h
  split at h
  · next hend =>
    simp only [Bool.and_eq_true, beq_iff_eq, List.isEmpty_iff] at h
    obtain ⟨⟨⟨hphase, hqueued⟩, hreceived⟩, harrived⟩ := h
    exact ⟨_, _, _, _, hend, hphase, hqueued, rfl, hreceived, harrived⟩
  all_goals cases h

namespace Run

/-- What the session has said after its version. -/
def said (run : Run) : List Message := run.turns.flatMap Turn.written

/-- Whether the session has acknowledged the version of its peer. -/
def hasAcknowledged (run : Run) : Bool := !run.said.isEmpty

/-- The run when the pipes have changed at their other ends. -/
def rejoin (run : Run) (toNode toRemote : Pipe) : Run :=
  { run with line := { run.line with toNode, toRemote } }

end Run

end Line

open Line (Run frames)
open Session (Turn)

/-! ## Pairs -/

/-- The two ends of a stream. -/
inductive Side
  | near
  | far
  deriving DecidableEq

/-- The other end. -/
def Side.other : Side → Side
  | near => far
  | far => near

lemma Side.other_other (side : Side) : side.other.other = side := by cases side <;> rfl

/-- There are two sides. -/
lemma Side.eq_or_eq_other (side side' : Side) : side' = side ∨ side' = side.other := by
  cases side <;> cases side' <;> decide

/-- What a node brings to the connection: its settings, what it holds, the time, how it calls its
peer, and how many bytes fit into the pipe that leads to it. -/
structure Pair.Node where
  settings : Settings
  ledger : Ledger
  moment : Moment
  peer : PeerId
  capacity : Nat

/-- Two sessions, one at each end of a stream. -/
abbrev Pair := Side → Run

namespace Pair

/-- Two sessions that have just started. -/
def start (nodes : Side → Pair.Node) : Pair := fun side =>
  let node := nodes side
  Run.start node.settings node.ledger node.moment node.peer
    ⟨none, .closed, .start false, .ofCapacity node.capacity,
      .ofCapacity (nodes side.other).capacity⟩

/-- One event more at one of the sessions, unless something goes wrong in it. The other session
finds the pipes changed. -/
def advance (nodes : Side → Pair.Node) (p : Pair) (side : Side) (event : Line.Event) : Pair :=
  if event.isSmooth (p side).line then
    let run := (p side).advance (nodes side).settings event
    fun side' =>
      if side' = side then run else (p side').rejoin run.line.toRemote run.line.toNode
  else p

/-- What events lead to. -/
def after (nodes : Side → Pair.Node) (events : List (Side × Line.Event)) : Pair :=
  events.foldl (fun p (side, event) => p.advance nodes side event) (start nodes)

end Pair

/-! ## One session -/

/-- Nothing has gone wrong so far at a session, and it has found no violation. -/
structure Line.Run.Smooth (node : Pair.Node) (run : Run) : Prop where
  sound : run.Sound node.settings node.ledger node.moment
  smooth : ∀ t ∈ run.turns, t.input.isSmooth = true
  lawful : ∀ t ∈ run.turns, t.violation? = none

/-- What one session hears of the other. -/
structure Heard (node : Pair.Node) (run other : Run) : Prop where
  /-- What leads to the one comes from the other. -/
  joined : run.line.toNode = other.line.toRemote
  intact : run.line.toNode.inlet.ending ≠ some .reset
  hears : ∀ c, run.line.connection? = some c → ∃ coming,
    other.sent ++ coming = frames (other.messages node.settings node.ledger node.moment) ∧
      c.Hears run.line.toNode.inlet.arrived coming other.hasAcknowledged

variable {node node' : Pair.Node} {run run' other other' : Run} {event : Line.Event}

/-- What does not concern the session keeps it smooth. -/
lemma Line.Run.Smooth.rejoin (h : run.Smooth node) (toNode toRemote : Pipe) :
    (run.rejoin toNode toRemote).Smooth node := ⟨h.sound, h.smooth, h.lawful⟩

/-! ## Who hears acts -/

/-- What happens at a line happens aside from the session, or the session makes a move. -/
lemma quiet_or_session (hsmooth : event.isSmooth run.line = true)
    (hintact : run.line.toNode.inlet.ending ≠ some .reset) (settings : Settings) :
    run.Quiet (run.advance settings event) ∨ ∃ ledger moment, event = .session ledger moment := by
  cases event with
  | intake => exact .inl (Run.quiet_intake run hintact)
  | session ledger moment => exact .inr ⟨ledger, moment, rfl⟩
  | command c => exact .inl (Run.quiet_deliver run (fun _ => rfl) (fun _ => rfl) fun _ => rfl)
  | answer a => exact .inl (Run.quiet_deliver run (fun _ => rfl) (fun _ => rfl) fun _ => rfl)
  | ring now => exact .inl (Run.quiet_ring run settings now)
  | inbound toNode => exact absurd hsmooth Bool.false_ne_true
  | outbound toRemote => exact absurd hsmooth Bool.false_ne_true

/-- What happens aside from a session goes unheard. -/
lemma Heard.quiet (h : Heard node' run other) (hrun : run.Smooth node) (hquiet : run.Quiet run')
    (hsound : run'.Sound node.settings node.ledger node.moment) :
    run'.Smooth node ∧ Heard node' run' (other.rejoin run'.line.toRemote run'.line.toNode) := by
  refine ⟨⟨hsound, ?_, ?_⟩, ⟨rfl, ?_, fun c' hc' => ?_⟩⟩
  · rw [hquiet.turns]
    exact hrun.smooth
  · rw [hquiet.turns]
    exact hrun.lawful
  · rw [hquiet.ending]
    exact h.intact
  · obtain ⟨c, hc, hkept⟩ := hquiet.hears c' hc'
    obtain ⟨coming, hbytes, hhears⟩ := h.hears c hc
    exact ⟨coming, hbytes, hkept _ _ hhears⟩

/-- A session that hears another finds no violation, whatever it does. -/
lemma Heard.move (h : Heard node' run other) (hrun : run.Smooth node) {ledger : Ledger}
    {moment : Moment} (hsmooth : (Line.Event.session ledger moment).isSmooth run.line = true)
    (hmoves : Run.Moves node.settings ledger moment run run')
    (hsound : run'.Sound node.settings node.ledger node.moment) :
    run'.Smooth node ∧ Heard node' run' (other.rejoin run'.line.toRemote run'.line.toNode) := by
  cases hmoves with
  | rests => exact ⟨hrun, ⟨rfl, h.intact, h.hears⟩⟩
  | writes hend =>
    refine ⟨⟨hsound, hrun.smooth, hrun.lawful⟩, ⟨rfl, h.intact, fun c' hc' => ?_⟩⟩
    cases hc'
    exact h.hears _ (Line.connection?_of_localEnd hend)
  | @turn peer c c' writing nextTimer toRemote sent input hend hinput _ hturn =>
    obtain ⟨coming, hbytes, hhears⟩ := h.hears c (Line.connection?_of_localEnd hend)
    obtain ⟨s, hhistory, hstanding⟩ := id hsound
    obtain ⟨-, hdue, hafter⟩ := hhistory.of_append
    have hgood : input.isSmooth = true := Line.isSmooth_of_turn? hsmooth hturn
    have hlawful : Turn.violation? ⟨c'.session, ledger, moment, input⟩ = none :=
      Turn.violation?_eq_none (hhears.takesUp hinput).1
    refine ⟨⟨hsound, List.forall_mem_append.mpr ⟨hrun.smooth, List.forall_mem_singleton.mpr hgood⟩,
      List.forall_mem_append.mpr ⟨hrun.lawful, List.forall_mem_singleton.mpr hlawful⟩⟩,
      ⟨rfl, ?_, fun c'' hc'' => ?_⟩⟩
    · rw [Line.inlet_foldl_apply]
      exact h.intact
    · -- The session goes on, so the connection is the one that the turn led to.
      have hphase := hstanding.ne_over (Line.localEnd_ne_closed hc'')
      rw [hafter] at hphase
      have hsame := (Line.connection?_foldl_apply moment.now
        (c'.advance node.settings ledger moment input).2 _).resolve_left
          (Option.isSome_iff_ne_none.mp (Option.isSome_of_mem hc''))
      rw [hsame] at hc''
      cases hc''
      rw [Line.inlet_foldl_apply]
      exact ⟨coming, hbytes, hhears.advance hinput hdue hgood node.settings hphase⟩

/-- Whatever happens at its own end, a session goes on to hear the other. -/
lemma Heard.act (h : Heard node' run other) (hrun : run.Smooth node)
    (hsmooth : event.isSmooth run.line = true) :
    (run.advance node.settings event).Smooth node ∧
      Heard node' (run.advance node.settings event)
        (other.rejoin (run.advance node.settings event).line.toRemote
          (run.advance node.settings event).line.toNode) := by
  have hsound := hrun.sound.advance event
  rcases quiet_or_session hsmooth h.intact node.settings with hquiet | ⟨ledger, moment, rfl⟩
  · exact h.quiet hrun hquiet hsound
  · exact h.move hrun hsmooth (Run.moves node.settings ledger moment run) hsound

/-! ## Who is heard acts -/

/-- The other session puts bytes on the pipe, and may begin with another message. -/
lemma Heard.extend (h : Heard node run other)
    (hsound : other'.Sound node.settings node.ledger node.moment) (sent : Bytes)
    (written : List Message) (hsent : other'.sent = other.sent ++ sent)
    (harrived : other'.line.toRemote.inlet.arrived = other.line.toRemote.inlet.arrived ++ sent)
    (hending : other'.line.toRemote.inlet.ending ≠ some .reset)
    (hsaid : other'.said = other.said ++ written)
    (hwritten : written = [] ∨
      ∃ m, written = [m] ∧ HandshakeState.MaySay other.hasAcknowledged m.command)
    (toRemote : Pipe) :
    Heard node (run.rejoin other'.line.toRemote toRemote) other' := by
  refine ⟨rfl, hending, fun c hc => ?_⟩
  obtain ⟨coming, hbytes, hhears⟩ := h.hears c hc
  obtain ⟨s, -, hstanding⟩ := hsound
  obtain ⟨coming', hbytes'⟩ := hstanding.isPrefix
  refine ⟨coming', hbytes', ?_⟩
  have hmessages : other'.messages node.settings node.ledger node.moment =
      other.messages node.settings node.ledger node.moment ++ written := by
    change _ ++ other'.said = (_ ++ other.said) ++ written
    rw [hsaid, List.append_assoc]
  have hmore : sent ++ coming' = coming ++ written.flatMap Message.encode := by
    rw [hmessages, frames, List.flatMap_append, ← frames, ← hbytes, hsent, List.append_assoc,
      List.append_assoc] at hbytes'
    exact List.append_cancel_left hbytes'
  change c.Hears other'.line.toRemote.inlet.arrived coming' other'.hasAcknowledged
  rw [harrived, ← h.joined]
  refine hhears.extend hmore ?_
  rw [Run.hasAcknowledged, hsaid]
  rcases hwritten with rfl | ⟨m, rfl, hsays⟩
  · exact .inl ⟨rfl, by rw [List.append_nil]; rfl⟩
  · exact .inr ⟨m, rfl, hsays, by simp⟩

/-- Nothing is put on the pipe. -/
lemma Heard.keep (h : Heard node run other)
    (hsound : other'.Sound node.settings node.ledger node.moment)
    (hsent : other'.sent = other.sent) (hturns : other'.turns = other.turns)
    (hpipe : other'.line.toRemote = other.line.toRemote) (toRemote : Pipe) :
    Heard node (run.rejoin other'.line.toRemote toRemote) other' := by
  have hending := h.intact
  rw [h.joined, ← hpipe] at hending
  refine h.extend hsound [] [] ?_ ?_ hending ?_ (.inl rfl) toRemote
  · rw [hsent, List.append_nil]
  · rw [hpipe, List.append_nil]
  · rw [Run.said, hturns, List.append_nil, Run.said]

/-- Whatever happens at the other end, a session goes on to hear the other. -/
lemma Heard.attend (h : Heard node run other) (hother : other.Smooth node)
    (hintact : other.line.toNode.inlet.ending ≠ some .reset)
    (hsmooth : event.isSmooth other.line = true) (toRemote : Pipe) :
    Heard node (run.rejoin (other.advance node.settings event).line.toRemote toRemote)
      (other.advance node.settings event) := by
  have hsound := hother.sound.advance event
  rcases quiet_or_session hsmooth hintact node.settings with hquiet | ⟨ledger, moment, rfl⟩
  · exact h.keep hsound hquiet.sent hquiet.turns hquiet.toRemote toRemote
  · have hmoves := Run.moves node.settings ledger moment other
    have hending := h.intact
    rw [h.joined] at hending
    generalize other.advance node.settings (.session ledger moment) = other' at hmoves hsound ⊢
    cases hmoves with
    | rests => exact h.keep hsound rfl rfl rfl toRemote
    | writes _ htakes =>
      refine h.extend hsound _ [] rfl htakes.arrived ?_ (List.append_nil _).symm (.inl rfl) toRemote
      rw [htakes.ending]
      exact hending
    | @turn peer c c' writing nextTimer toRemote' sent input _ _ htakes hturn =>
      let t : Turn := ⟨c'.session, ledger, moment, input⟩
      obtain ⟨s, hhistory, -⟩ := id hsound
      obtain ⟨hearlier, hdue, -⟩ := hhistory.of_append
      have hsays := (hearlier.speaks hother.smooth).maySay hearlier.coherent hdue
        (Line.isSmooth_of_turn? hsmooth hturn)
      refine h.extend hsound _ t.written rfl ?_ ?_ ?_ hsays toRemote
      · rw [Line.arrived_foldl_apply]
        exact htakes.arrived
      · refine Line.ending_foldl_apply _ _ _ ?_
        rw [htakes.ending]
        exact hending
      · simp only [Run.said, List.flatMap_append, List.flatMap_singleton, t]

/-! ## Both sessions -/

namespace Pair

variable {nodes : Side → Pair.Node} {p : Pair}

/-- Nothing has gone wrong at either session, and each hears the other. -/
def Sound (nodes : Side → Pair.Node) (p : Pair) : Prop :=
  ∀ side, (p side).Smooth (nodes side) ∧
    Heard (nodes side.other) (p side) (p side.other)

/-- At the start nothing has gone wrong, and nothing was said. -/
lemma sound_start (nodes : Side → Pair.Node) : Sound nodes (start nodes) := by
  intro side
  refine ⟨⟨Run.sound_start _ _ _ _ _, List.forall_mem_nil _, List.forall_mem_nil _⟩, ?_, ?_, ?_⟩
  · cases side <;> rfl
  · exact fun hreset => Option.noConfusion rfl (heq_of_eq hreset)
  · intro c hc
    cases hc
    exact ⟨_, List.nil_append _, [], _, Mailbox.holds_ofCapacity _,
      .reading ⟨FrameReader.valid_start, rfl⟩, .version .nothing⟩

/-- No event at either side makes anything go wrong. -/
lemma Sound.advance (h : p.Sound nodes) (side : Side) (event : Line.Event) :
    (p.advance nodes side event).Sound nodes := by
  rw [Pair.advance]
  split
  · next hsmooth =>
    obtain ⟨hrun, hheard⟩ := h side
    obtain ⟨hother, hheard'⟩ := h side.other
    rw [side.other_other] at hheard'
    obtain ⟨hrun', hheard''⟩ := hheard.act hrun hsmooth
    have hne : side.other ≠ side := by cases side <;> decide
    intro side'
    rcases side.eq_or_eq_other side' with rfl | rfl
    · simp only [if_true, if_neg hne]
      exact ⟨hrun', hheard''⟩
    · simp only [side.other_other, if_true, if_neg hne]
      exact ⟨hother.rejoin _ _, hheard'.attend hrun hheard.intact hsmooth _⟩
  · exact h

/-- After all events nothing has gone wrong at either side. -/
lemma sound_after (nodes : Side → Pair.Node) (events : List (Side × Line.Event)) :
    (after nodes events).Sound nodes := by
  rw [after]
  induction events using List.reverseRecOn with
  | nil => exact sound_start nodes
  | append_singleton events event ih =>
    rw [List.foldl_append]
    exact ih.advance event.1 event.2

/-- With nothing on its way a handler is ready, or it waits for an acknowledgement that the other
session has not sent. -/
lemma Sound.of_isAtRest (h : p.Sound nodes) {side : Side}
    (hrest : (p side).line.isAtRest = true) (hother : (p side.other).line.isAtRest = true) :
    ∃ c, (p side).line.connection? = some c ∧ c.session.phase = .idle ∧
      c.session.Speaks (p side).said ∧ (c.session.handler.state = .ready ∨
        (c.session.handler.state = .awaitingVerack ∧ (p side.other).hasAcknowledged = false)) := by
  obtain ⟨peer, c, nextTimer, reader, hend, hphase, hqueued, hintake, hreceived, harrived⟩ :=
    Line.exists_of_isAtRest hrest
  have hc := Line.connection?_of_localEnd hend
  obtain ⟨coming, hbytes, hhears⟩ := (h side).2.hears c hc
  -- The other session has written all that it began to write.
  obtain ⟨peer', c', nextTimer', -, hend', -⟩ := Line.exists_of_isAtRest hother
  obtain ⟨s', -, hstanding'⟩ := (h side.other).1.sound
  rw [hend'] at hstanding'
  cases hstanding' with
  | waiting _ _ hall =>
    rw [← hall] at hbytes
    rw [harrived, List.append_right_eq_self.mp hbytes] at hhears
    obtain ⟨s, hhistory, hstanding⟩ := (h side).1.sound
    rw [hend] at hstanding
    cases hstanding with
    | waiting hsession =>
      subst hsession
      refine ⟨c, hc, hphase, hhistory.speaks (h side).1.smooth, ?_⟩
      rcases (hhears.of_silence hintake hreceived hqueued).of_nil with hwaits | hready | hstopped
      · exact .inr hwaits
      · exact .inl hready
      · exact absurd hstopped (hhistory.coherent.of_idle hphase).1

/-- Whatever the two nodes are like, however the steps of their sessions, intakes, timers and
managers are interleaved: as long as nothing goes wrong neither session finds a violation, and
whenever nothing is on its way and both sessions wait for something to do, both have completed the
handshake. -/
theorem handshake_completes (nodes : Side → Pair.Node) (events : List (Side × Line.Event)) :
    let p := after nodes events
    (∀ side, ∀ t ∈ (p side).turns, t.violation? = none) ∧
    ((∀ side, (p side).line.isAtRest = true) →
      ∀ side, ∃ c, (p side).line.connection? = some c ∧ c.session.isReady = true) := by
  intro p
  have hsound : p.Sound nodes := sound_after nodes events
  refine ⟨fun side => (hsound side).1.lawful, fun hrest side => ?_⟩
  obtain ⟨c, hc, -, -, hready | ⟨-, hsilent⟩⟩ :=
    hsound.of_isAtRest (hrest side) (hrest side.other)
  · exact ⟨c, hc, by rw [Session.isReady, hready]; rfl⟩
  · -- The other session has not acknowledged our version, and so has not heard of it; but it has.
    exfalso
    obtain ⟨c', -, hphase', hspeaks', hstate'⟩ :=
      hsound.of_isAtRest (hrest side.other) (hrest side.other.other)
    rw [Run.hasAcknowledged, Bool.not_eq_false', List.isEmpty_iff] at hsilent
    rw [hsilent] at hspeaks'
    cases hspeaks' with
    | silent hundecided =>
      rcases hundecided with (hasked | hnew) | hover
      · exact SessionPhase.noConfusion (hphase'.symm.trans hasked)
      · rw [hnew] at hstate'
        rcases hstate' with hready' | ⟨hwaits', -⟩
        · exact HandshakeState.noConfusion hready'
        · exact HandshakeState.noConfusion hwaits'
      · exact SessionPhase.noConfusion (hphase'.symm.trans hover)

/-- Two nodes that take turns at everything come to rest. -/
theorem handshake_completes_in_turns :
    ∃ (nodes : Side → Pair.Node) (events : List (Side × Line.Event)),
      (∀ side, (after nodes events side).line.isAtRest = true) ∧
      ∀ side, ∃ c, (after nodes events side).line.connection? = some c ∧
        c.session.isReady = true := by
  let ledger : Ledger := MemoryLedger.toLedger ⟨[], none, [], [], [], [], none, 0⟩
  let nodes : Side → Pair.Node := fun _ => ⟨.standard (.ofMagic 0 0), ledger, ⟨0, 0⟩, ⟨1⟩, 1000⟩
  let both : List Line.Event → List (Side × Line.Event) := fun events =>
    events.map (Prod.mk .near) ++ events.map (Prod.mk .far)
  let session : Line.Event := .session ledger ⟨0, 0⟩
  let admission : List Line.Event := [session, .answer (.verdict (.ok ())), session, session]
  let events := both [session] ++ both (List.replicate 4 .intake ++ admission) ++
    both (List.replicate 3 .intake ++ [session])
  have hrest : ∀ side, (after nodes events side).line.isAtRest = true := by
    intro side
    cases side <;> decide +kernel
  exact ⟨nodes, events, hrest, (handshake_completes nodes events).2 hrest⟩

end Pair

end PeerNet
