import PeerNet.Proofs.Session.Connection
import PeerNet.Proofs.Session.History
import PeerNet.Simulation.Line

/-!
# The bytes of a session

At the node's end of a line a session begins to write a message, goes on as the pipe has room, and
takes its next turn when the write is over (`Line.turn?`).  `Line.Run` is a line in the course of
whatever can happen at it, with the turns of the session and the bytes that it put on the pipe; the
remote may do to the pipes what it likes.

While the session writes, the bytes on the pipe and those that are left make up its messages so far;
while it waits there are none left (`Line.Standing`).  A write that fails leaves some over, but ends
the session, so that nothing ever stands behind a frame that was torn.
-/

namespace PeerNet

namespace Line

open Session (Turn)

/-- The turn that the session takes in its next move, unless it only goes on with a write. -/
def turn? (l : Line) (ledger : Ledger) (moment : Moment) : Option Turn :=
  match l.localEnd with
  | .connection _ c (some w) _ =>
    match w.proceed? l.toRemote moment.now with
    | some (_, .over complete) => some ⟨c.session, ledger, moment, .written complete⟩
    | _ => none
  | .connection _ c none _ =>
    (c.next? moment.now).map fun (input, c) => ⟨c.session, ledger, moment, input⟩
  | .notice _ | .closed => none

/-- What can happen at the line of a connection. -/
inductive Event
  | intake
  | session (ledger : Ledger) (moment : Moment)
  | command (c : SessionCommand)
  | answer (a : ManagerAnswer)
  | ring (now : Nat)
  /-- The remote sends, or closes its end. -/
  | inbound (toNode : Pipe)
  /-- The remote reads, or closes its end. -/
  | outbound (toRemote : Pipe)

/-! ## Effects at the line -/

/-- Only what concerns the stream changes the line. -/
lemma foldl_apply_eq (now : Nat) (effects : List SessionEffect) (l : Line) :
    effects.foldl (apply now) l =
      (effects.filter SessionEffect.isAtStream).foldl (apply now) l := by
  induction effects generalizing l with
  | nil => rfl
  | cons effect rest ih =>
    cases effect with
    | write m => exact ih _
    | close => exact ih _
    | notify n => exact ih _
    | report r => exact ih _

/-- What arrived at the other end stays there when the node's end is closed. -/
lemma arrived_hangUp (l : Line) : l.hangUp.toRemote.inlet.arrived = l.toRemote.inlet.arrived := by
  rw [hangUp, Pipe.close, Inlet.finish]
  split <;> rfl

/-- Carrying out effects puts no bytes on the pipe by itself. -/
lemma arrived_foldl_apply (now : Nat) (effects : List SessionEffect) (l : Line) :
    (effects.foldl (apply now) l).toRemote.inlet.arrived = l.toRemote.inlet.arrived := by
  induction effects generalizing l with
  | nil => rfl
  | cons effect rest ih =>
    rw [List.foldl_cons, ih]
    cases effect with
    | write m =>
      rw [apply]
      split <;> rfl
    | close => exact arrived_hangUp l
    | notify n => rfl
    | report r => rfl

/-! ## Writing -/

/-- A write fails and leaves the pipe as it is, or puts on the pipe what finds room. -/
lemma proceed?_cases {w : Writing} {p p' : Pipe} {now : Nat} {status : WriteStatus}
    (h : w.proceed? p now = some (p', status)) :
    (status = .over false ∧ p' = p) ∨
      p'.inlet.arrived = p.inlet.arrived ++ w.rest.take p.room ∧
        (status = .over true ∧ w.rest.drop p.room = [] ∨
          status = .underWay { w with rest := w.rest.drop p.room }) := by
  rw [Writing.proceed?] at h
  split at h
  · cases h
  · split at h
    · cases h
      exact .inl ⟨rfl, rfl⟩
    · refine .inr ?_
      have hput : p.put w.rest = ({ p with inlet := { p.inlet with
          arrived := p.inlet.arrived ++ w.rest.take p.room } }, w.rest.drop p.room) := rfl
      rw [hput] at h
      dsimp only at h
      split at h
      · next hrest =>
        cases h
        exact ⟨rfl, .inl ⟨rfl, List.isEmpty_iff.mp hrest⟩⟩
      · cases h
        exact ⟨rfl, .inr rfl⟩

/-! ## How a session stands -/

/-- How the session at the node's end stands to its messages and to the bytes on the pipe. -/
inductive Standing (s : Session) (all sent : Bytes) : LocalEnd → Prop
  | writing {peer : PeerId} {c : Connection} {w : Writing} {nextTimer : Nat}
    (hsession : c.session = s) (hwriting : s.isWriting = true) (hbytes : sent ++ w.rest = all) :
    Standing s all sent (.connection peer c (some w) nextTimer)
  | waiting {peer : PeerId} {c : Connection} {nextTimer : Nat}
    (hsession : c.session = s) (hwaiting : s.isWaiting = true) (hbytes : sent = all) :
    Standing s all sent (.connection peer c none nextTimer)
  | closed (hbytes : sent <+: all) : Standing s all sent .closed

/-- However a session stands, it put whole frames on the pipe, up to the last. -/
lemma Standing.isPrefix {s : Session} {all sent : Bytes} {localEnd : LocalEnd}
    (h : Standing s all sent localEnd) : sent <+: all := by
  cases h with
  | writing _ _ hbytes => exact ⟨_, hbytes⟩
  | waiting _ _ hbytes => exact hbytes ▸ List.prefix_rfl
  | closed hbytes => exact hbytes

/-- A session whose stream is open is not over. -/
lemma Standing.ne_over {s : Session} {all sent : Bytes} {localEnd : LocalEnd}
    (h : Standing s all sent localEnd) (hopen : localEnd ≠ .closed) : s.phase ≠ .over := by
  intro hover
  cases h with
  | writing _ hwriting =>
    rw [Session.isWriting, hover] at hwriting
    exact Bool.noConfusion hwriting
  | waiting _ hwaiting =>
    rw [Session.isWaiting, hover] at hwaiting
    exact Bool.noConfusion hwaiting
  | closed => exact hopen rfl

/-- Bytes of the messages that a session begins to write. -/
def frames (messages : List Message) : Bytes := messages.flatMap Message.encode

variable {settings : Settings} {l : Line} {all sent : Bytes} {t : Turn}

/-- A turn leaves the session standing as it should: what it begins to write is still to be put on
the pipe.  Some bytes of earlier messages may be missing only if the turn ends the session. -/
lemma standing_turn {peer : PeerId} {c : Connection} {nextTimer : Nat}
    (hproceeds : t.before.Proceeds t.input t.result) (hsession : c.session = t.after)
    (hend : l.localEnd = .connection peer c none nextTimer)
    (hbytes : sent = all ∨ (t.after.phase = .over ∧ sent <+: all)) :
    Standing t.after (all ++ frames t.written) sent
      (t.result.2.foldl (apply t.moment.now) l).localEnd := by
  have hmove := hproceeds.move
  rw [foldl_apply_eq, t.written_eq]
  generalize t.result.2.filter SessionEffect.isAtStream = effects at hmove ⊢
  -- Bytes are missing only where the session is over, and then it does not go on.
  have hall : t.after.phase ≠ .over → sent = all := fun hphase =>
    hbytes.elim id fun hover => absurd hover.1 hphase
  have hwrites : ∀ m, t.after.isWriting = true → effects = [.write m] →
      Standing t.after (all ++ frames (effects.filterMap SessionEffect.written?)) sent
        (effects.foldl (apply t.moment.now) l).localEnd := by
    rintro m hwriting rfl
    have hphase : t.after.phase ≠ .over := by
      intro hover
      rw [Session.isWriting, hover] at hwriting
      exact Bool.noConfusion hwriting
    have hline : ([.write m].foldl (apply t.moment.now) l).localEnd =
        .connection peer c (some ⟨m.encode, t.moment.now + Session.writeTimeout⟩) nextTimer := by
      simp [apply, hend]
    rw [hline, hall hphase]
    exact .writing hsession hwriting (by simp [frames, SessionEffect.written?])
  cases hmove with
  | silent hwaiting =>
    have hphase : t.after.phase ≠ .over := by
      intro hover
      change t.after.isWaiting = true at hwaiting
      rw [Session.isWaiting, hover] at hwaiting
      exact Bool.noConfusion hwaiting
    rw [List.foldl_nil, hend, hall hphase]
    exact .waiting hsession hwaiting (by simp [frames])
  | forwarded _ _ hphase => exact hwrites _ (Session.isWriting_of_writing hphase) rfl
  | working _ _ hphase => exact hwrites _ (Session.isWriting_of_writing hphase) rfl
  | admitted _ _ _ _ hphase => exact hwrites _ (Session.isWriting_of_writing hphase) rfl
  | parted _ hphase => exact hwrites _ (Session.isWriting_of_parting hphase) rfl
  | ended =>
    refine .closed ?_
    have hnone : all ++ frames ([SessionEffect.close].filterMap SessionEffect.written?) = all :=
      List.append_nil all
    rw [hnone]
    exact hbytes.elim (fun heq => heq ▸ List.prefix_rfl) And.right

/-- What a session takes up next is due. -/
lemma due_of_next? {c c' : Connection} {now : Nat} {input : SessionInput}
    (h : c.next? now = some (input, c')) : c'.session = c.session ∧ c.session.Due input := by
  cases Connection.chooses_of_next? h with
  | answer hphase | command hphase | item hphase | handshakeTimeout hphase
  | readerFinished hphase =>
    exact ⟨rfl, hphase⟩

/-- A line with the past of its session. -/
structure Run where
  line : Line
  /-- The turns that the session took. -/
  turns : List Turn
  /-- The bytes that it put on the pipe to the remote. -/
  sent : Bytes

/-- What leaves the session and its write alone leaves it standing as it did. -/
lemma Standing.congr {s : Session} {peer : PeerId} {c c' : Connection} {writing : Option Writing}
    {nextTimer nextTimer' : Nat}
    (h : Standing s all sent (.connection peer c writing nextTimer))
    (hsame : c'.session = c.session) :
    Standing s all sent (.connection peer c' writing nextTimer') := by
  cases h with
  | writing hsession hwriting hbytes => exact .writing (hsame.trans hsession) hwriting hbytes
  | waiting hsession hwaiting hbytes => exact .waiting (hsame.trans hsession) hwaiting hbytes

/-- A delivery that leaves the session alone leaves it where it stands. -/
lemma standing_deliver {s : Session} {f : Connection → Connection}
    (hf : ∀ c, (f c).session = c.session) (h : Standing s all sent l.localEnd) :
    Standing s all sent (l.deliver f).localEnd := by
  rw [deliver]
  split
  · next hend =>
    rw [hend] at h
    exact h.congr (hf _)
  · exact h
  · exact h

/-- The timer leaves the session where it stands. -/
lemma standing_ring {s : Session} (now : Nat) (h : Standing s all sent l.localEnd) :
    Standing s all sent (l.ring settings now).localEnd := by
  rw [ring]
  split
  · next hend =>
    split
    · rw [hend] at h
      exact h.congr rfl
    · exact h
  · exact h
  · exact h

/-- Reading leaves the session where it stands. -/
lemma standing_intake {s : Session} {move : Move} (hmove : l.moveIntake = some move)
    (h : Standing s all sent l.localEnd) : Standing s all sent move.line.localEnd := by
  rw [moveIntake] at hmove
  split at hmove
  · next hend =>
    rw [hend] at h
    split at hmove
    · cases hmove
    · cases hmove
      exact h.congr rfl
  · cases hmove
  · cases hmove

namespace Run

/-- A line at which a session has just started. -/
def start (settings : Settings) (ledger : Ledger) (moment : Moment) (peer : PeerId) (l : Line) :
    Run :=
  let (c, effects) := Connection.start settings ledger moment.unixTime
  let localEnd := .connection peer c none (moment.now + settings.timerInterval)
  ⟨effects.foldl (apply moment.now) { l with localEnd }, [], []⟩

/-- A run after one more event. -/
def advance (settings : Settings) (run : Run) : Event → Run
  | .intake => { run with line := (run.line.moveIntake.map Move.line).getD run.line }
  | .session ledger moment =>
    match run.line.moveSession settings ledger moment with
    | none => run
    | some move =>
      { line := move.line
        turns := run.turns ++ (run.line.turn? ledger moment).toList
        sent := run.sent ++
          move.line.toRemote.inlet.arrived.drop run.line.toRemote.inlet.arrived.length }
  | .command command =>
    { run with
      line := run.line.deliver fun c => { c with commands := c.commands ++ [command] } }
  | .answer a => { run with line := run.line.deliver fun c => { c with answer := some a } }
  | .ring now => { run with line := run.line.ring settings now }
  | .inbound toNode => { run with line := { run.line with toNode } }
  | .outbound toRemote => { run with line := { run.line with toRemote } }

/-- The line of a new connection after some events. -/
def after (settings : Settings) (ledger : Ledger) (moment : Moment) (peer : PeerId) (l : Line)
    (events : List Event) : Run :=
  events.foldl (advance settings) (start settings ledger moment peer l)

/-- The messages whose write has begun, from the one that opens the connection on. -/
def messages (settings : Settings) (ledger : Ledger) (moment : Moment) (run : Run) :
    List Message :=
  (Session.start settings ledger moment.unixTime).2.filterMap SessionEffect.written? ++
    run.turns.flatMap Turn.written

/-- The turns are those of one session, which stands as it should. -/
def Sound (settings : Settings) (ledger : Ledger) (moment : Moment) (run : Run) : Prop :=
  ∃ s, Session.History settings ledger moment.unixTime run.turns s ∧
    Standing s (frames (run.messages settings ledger moment)) run.sent run.line.localEnd

variable {ledger ledger' : Ledger} {moment moment' : Moment} {run : Run}

/-- A new session has its version to write, and no byte of it is on the pipe. -/
lemma sound_start (settings : Settings) (ledger : Ledger) (moment : Moment) (peer : PeerId)
    (l : Line) : (start settings ledger moment peer l).Sound settings ledger moment :=
  ⟨_, .start, .writing rfl rfl (by
    simp [start, frames, messages, Session.start, SessionEffect.written?])⟩

/-- A move of the session in which it takes a turn. -/
lemma sound_turn {peer : PeerId} {c : Connection}
    {nextTimer : Nat} {toRemote : Pipe} {input : SessionInput} {sent : Bytes}
    (hsession : Session.History settings ledger moment.unixTime run.turns c.session)
    (hdue : c.session.Due input)
    (hbytes : sent = frames (run.messages settings ledger moment) ∨
      ((c.session.step ledger' moment' input).1.phase = .over ∧
        sent <+: frames (run.messages settings ledger moment))) :
    Sound settings ledger moment
      ⟨(c.advance settings ledger' moment' input).2.foldl (apply moment'.now)
        { run.line with
          localEnd := .connection peer (c.advance settings ledger' moment' input).1 none nextTimer
          toRemote },
        run.turns ++ [⟨c.session, ledger', moment', input⟩], sent⟩ := by
  let t : Turn := ⟨c.session, ledger', moment', input⟩
  have hproceeds : t.before.Proceeds t.input t.result :=
    Session.step_proceeds hsession.coherent hdue
  refine ⟨t.after, .turn (t := t) hsession hdue, ?_⟩
  have hmessages : frames (messages settings ledger moment
      ⟨run.line, run.turns ++ [t], sent⟩) =
      frames (run.messages settings ledger moment) ++ frames t.written := by
    simp [frames, messages, List.flatMap_append]
  have hstanding := standing_turn (l := { run.line with
      localEnd := .connection peer (c.advance settings ledger' moment' input).1 none nextTimer
      toRemote }) hproceeds rfl rfl hbytes
  rw [← hmessages] at hstanding
  exact hstanding

/-- A session that writes goes on as the pipe has room, and takes a turn when the write is over. -/
lemma Sound.session_writing (h : run.Sound settings ledger moment) {peer : PeerId}
    {c : Connection} {w : Writing} {nextTimer : Nat}
    (hend : run.line.localEnd = .connection peer c (some w) nextTimer) :
    (run.advance settings (.session ledger' moment')).Sound settings ledger moment := by
  obtain ⟨s, hhistory, hstanding⟩ := id h
  rw [hend] at hstanding
  cases hstanding with
  | writing hsession hwriting hbytes =>
    subst hsession
    rcases hproceed : w.proceed? run.line.toRemote moment'.now with _ | ⟨toRemote, status⟩
    · have hadvance : run.advance settings (.session ledger' moment') = run := by
        simp [advance, moveSession, hend, hproceed]
      rw [hadvance]
      exact h
    · have hover : ∀ complete, status = .over complete →
          run.advance settings (.session ledger' moment') =
            ⟨(c.advance settings ledger' moment' (.written complete)).2.foldl (apply moment'.now)
              { run.line with
                localEnd := .connection peer
                  (c.advance settings ledger' moment' (.written complete)).1 none nextTimer
                toRemote },
              run.turns ++ [⟨c.session, ledger', moment', .written complete⟩],
              run.sent ++ toRemote.inlet.arrived.drop run.line.toRemote.inlet.arrived.length⟩ := by
        rintro complete rfl
        simp [advance, moveSession, turn?, hend, hproceed, arrived_foldl_apply]
      rcases proceed?_cases hproceed with ⟨rfl, rfl⟩ | ⟨harrived, ⟨rfl, hrest⟩ | rfl⟩
      · -- The write failed, so that the session ends.
        have hdue : c.session.Due (.written false) := hwriting
        have hending : (c.session.step ledger' moment' (.written false)).1.phase = .over :=
          Session.phase_step_of_ending hhistory.coherent hdue .failed
        rw [hover false rfl, List.drop_length, List.append_nil]
        exact sound_turn hhistory hdue (.inr ⟨hending, ⟨_, hbytes⟩⟩)
      · -- Nothing is left of the write.
        have hall : w.rest.take run.line.toRemote.room = w.rest := by
          have hsplit := List.take_append_drop run.line.toRemote.room w.rest
          rwa [hrest, List.append_nil] at hsplit
        have hdue : c.session.Due (.written true) := hwriting
        rw [hover true rfl, harrived, List.drop_left, hall, hbytes]
        exact sound_turn hhistory hdue (.inl rfl)
      · have hadvance : run.advance settings (.session ledger' moment') =
            ⟨{ run.line with
              localEnd := .connection peer c
                (some { w with rest := w.rest.drop run.line.toRemote.room }) nextTimer
              toRemote },
              run.turns, run.sent ++ w.rest.take run.line.toRemote.room⟩ := by
          simp [advance, moveSession, turn?, hend, hproceed, harrived]
        rw [hadvance]
        refine ⟨_, hhistory, .writing rfl hwriting ?_⟩
        rw [List.append_assoc, List.take_append_drop]
        exact hbytes

/-- A session that waits takes a turn when something is due. -/
lemma Sound.session_waiting (h : run.Sound settings ledger moment) {peer : PeerId}
    {c : Connection} {nextTimer : Nat}
    (hend : run.line.localEnd = .connection peer c none nextTimer) :
    (run.advance settings (.session ledger' moment')).Sound settings ledger moment := by
  obtain ⟨s, hhistory, hstanding⟩ := id h
  rw [hend] at hstanding
  cases hstanding with
  | waiting hsession hwaiting hbytes =>
    subst hsession
    rcases hnext : c.next? moment'.now with _ | ⟨input, c'⟩
    · have hadvance : run.advance settings (.session ledger' moment') = run := by
        simp [advance, moveSession, hend, hnext]
      rw [hadvance]
      exact h
    · obtain ⟨hsame, hdue⟩ := due_of_next? hnext
      rw [← hsame] at hhistory hdue
      have hadvance : run.advance settings (.session ledger' moment') =
          ⟨(c'.advance settings ledger' moment' input).2.foldl (apply moment'.now)
            { run.line with
              localEnd :=
                .connection peer (c'.advance settings ledger' moment' input).1 none nextTimer },
            run.turns ++ [⟨c'.session, ledger', moment', input⟩], run.sent⟩ := by
        simp [advance, moveSession, turn?, hend, hnext, arrived_foldl_apply]
      rw [hadvance]
      exact sound_turn hhistory hdue (.inl hbytes)

/-- Every event leaves the session standing as it should. -/
lemma Sound.advance (h : run.Sound settings ledger moment) (event : Event) :
    (run.advance settings event).Sound settings ledger moment := by
  cases event with
  | session ledger' moment' =>
    cases hend : run.line.localEnd with
    | connection peer c writing nextTimer =>
      cases writing with
      | some w => exact h.session_writing hend
      | none => exact h.session_waiting hend
    | notice w =>
      obtain ⟨s, -, hstanding⟩ := h
      rw [hend] at hstanding
      cases hstanding
    | closed =>
      have hadvance : run.advance settings (.session ledger' moment') = run := by
        simp [Run.advance, moveSession, hend]
      rw [hadvance]
      exact h
  | intake =>
    obtain ⟨s, hhistory, hstanding⟩ := h
    refine ⟨s, hhistory, ?_⟩
    cases hmove : run.line.moveIntake with
    | none =>
      rw [Run.advance, hmove]
      exact hstanding
    | some move =>
      rw [Run.advance, hmove]
      exact standing_intake hmove hstanding
  | command c =>
    obtain ⟨s, hhistory, hstanding⟩ := h
    exact ⟨s, hhistory, standing_deliver (fun _ => rfl) hstanding⟩
  | answer a =>
    obtain ⟨s, hhistory, hstanding⟩ := h
    exact ⟨s, hhistory, standing_deliver (fun _ => rfl) hstanding⟩
  | ring now =>
    obtain ⟨s, hhistory, hstanding⟩ := h
    exact ⟨s, hhistory, standing_ring now hstanding⟩
  | inbound toNode => exact h
  | outbound toRemote => exact h

/-- After all events the session stands as it should. -/
lemma sound_after (settings : Settings) (ledger : Ledger) (moment : Moment) (peer : PeerId)
    (l : Line) (events : List Event) :
    (after settings ledger moment peer l events).Sound settings ledger moment := by
  rw [after]
  induction events using List.reverseRecOn with
  | nil => exact sound_start settings ledger moment peer l
  | append_singleton events event ih =>
    rw [List.foldl_append]
    exact ih.advance event

/-- Whatever happens at the line of a connection, the session opens with the local version, keeps
the discipline in all turns that it takes, and puts nothing on the pipe but the frames of the
messages that it begins to write, in that order and each complete before the next. -/
theorem session_speaks_in_frames (settings : Settings) (ledger : Ledger) (moment : Moment)
    (peer : PeerId) (l : Line) (events : List Event) :
    let run := after settings ledger moment peer l events
    let messages := run.messages settings ledger moment
    messages.head? = some (.version (settings.identity.version ledger.height moment.unixTime)) ∧
    (∃ s, Session.History settings ledger moment.unixTime run.turns s ∧
      ∀ peer c writing nextTimer, run.line.localEnd = .connection peer c writing nextTimer →
        c.session = s) ∧
    Session.Disciplined run.turns ∧
    run.sent <+: messages.flatMap Message.encode := by
  intro run messages
  obtain ⟨s, hhistory, hstanding⟩ := sound_after settings ledger moment peer l events
  refine ⟨rfl, ⟨s, hhistory, fun peer c writing nextTimer hend => ?_⟩, hhistory.disciplined,
    hstanding.isPrefix⟩
  rw [show run.line.localEnd = _ from hend] at hstanding
  cases hstanding with
  | writing hsession => exact hsession
  | waiting hsession => exact hsession

/-- What the manager gives a session to write is not under this discipline: once the handshake is
complete a session that is told to write a verack writes a second one, and one that is told to say
so says that the handshake took too long. -/
theorem verack_twice_on_command :
    ∃ (ledger : Ledger) (events : List Event),
      let settings := Settings.standard (.ofMagic 0 0)
      let run := after settings ledger ⟨0, 0⟩ ⟨1⟩ (Line.start "remote" .closed 1000 false) events
      (run.messages settings ledger ⟨0, 0⟩).count .verack = 2 ∧
        (run.turns.any fun t => t.before.isReady &&
          t.written.contains (.disconnect (.plain .connectionTimeout))) = true := by
  let ledger : Ledger :=
    { height := 0
      blockHash := fun _ => none
      blockIndex := fun _ => none
      containsBlock := fun _ => false
      containsTransaction := fun _ => false
      block := fun _ => none
      transaction := fun _ => none
      consensus := fun _ => none
      mempool := []
      mempoolCapacity := 0 }
  let version : Message := .version ⟨0, 0, 0, 1, "", []⟩
  let session : Event := .session ledger ⟨0, 0⟩
  refine ⟨ledger, [session, .inbound ⟨1000, ⟨version.encode ++ Message.verack.encode, none⟩, false⟩]
    ++ List.replicate 7 .intake ++ [session, .answer (.verdict (.ok ())), session, session, session,
      .command (.send .verack), session, session,
      .command (.send (.disconnect (.plain .connectionTimeout))), session], ?_⟩
  decide +kernel

end Run

end Line

end PeerNet
