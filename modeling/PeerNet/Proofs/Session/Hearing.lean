import PeerNet.Proofs.Frame.Sequence
import PeerNet.Proofs.Session.Connection
import PeerNet.Proofs.Session.Voice

/-!
# What a session hears of a session like it

On its way from one session to the other a message is in turn to come, in the pipe, partly read,
held back by the intake, and in the mailbox.  The messages that are anywhere on this way, in the
order of their commands, are what the handler at its end still has to hear (`Connection.Hears`);
whatever happens at either end keeps it so.
-/

namespace PeerNet

/-- The commands that an intake is still to push, while the frames of messages are on their way to
it.  One that is finished pushes nothing more, whatever comes. -/
inductive Intake.Awaits (arrived coming : Bytes) : Intake → List Command → Prop
  | reading {reader : FrameReader} {unread : List Message}
    (h : reader.Follows arrived coming unread) :
    Awaits arrived coming (.reading reader) (unread.map Message.command)
  | holding {reader : FrameReader} {m : Message} {unread : List Message}
    (h : reader.Follows arrived coming unread) :
    Awaits arrived coming (.holding reader m) (m.command :: unread.map Message.command)
  | finished (cs : List Command) : Awaits arrived coming .finished cs

/-- A step of the intake does not change how the stream ends. -/
lemma Intake.ending_step (intake : Intake) (inlet : Inlet) (mailbox : Mailbox) :
    (intake.step inlet mailbox).2.1.ending = inlet.ending := by
  cases intake with
  | reading reader =>
    have hstep := reader.ending_step reader.missing inlet
    rw [Intake.step]
    split <;> simp_all only
  | holding reader m => rfl
  | finished => rfl

namespace Connection

/-- A connection takes something up: that its write is over, or what comes next. -/
inductive TakesUp (c : Connection) (now : Nat) : SessionInput → Connection → Prop
  | written (complete : Bool) : TakesUp c now (.written complete) c
  | next {input : SessionInput} {c' : Connection} (h : c.next? now = some (input, c')) :
    TakesUp c now input c'

/-- The messages on their way to a connection are those that its handler still has to hear. -/
def Hears (c : Connection) (arrived coming : Bytes) (acknowledged : Bool) : Prop :=
  ∃ items awaited, c.mailbox.Holds items ∧ c.intake.Awaits arrived coming awaited ∧
    c.session.handler.state.Expects acknowledged (Mailbox.commands items ++ awaited)

variable {c c' : Connection} {arrived coming : Bytes} {acknowledged : Bool}

/-- What is taken up is taken out of the mailbox or was never there; that the reader is finished is
only noticed when the mailbox is empty. -/
lemma TakesUp.spec {now : Nat} {input : SessionInput} (h : c.TakesUp now input c') :
    c'.intake = c.intake ∧ c'.mailbox.closed = c.mailbox.closed ∧
      c.mailbox.messages = input.message?.toList ++ c'.mailbox.messages ∧
      (input = .readerFinished → c.mailbox.queued = [] ∧ c.intake = .finished) := by
  cases h with
  | written complete => exact ⟨rfl, rfl, rfl, SessionInput.noConfusion⟩
  | next hnext =>
    have hchooses := chooses_of_next? hnext
    obtain ⟨-, hintake, hclosed, hmessages⟩ := hchooses.spec
    refine ⟨hintake, hclosed, hmessages, ?_⟩
    rintro rfl
    cases hchooses with
    | readerFinished _ _ hempty hfinished => exact ⟨hempty, hfinished⟩

/-- What leaves the state, the mailbox and the intake alone does not matter. -/
lemma Hears.congr (h : c.Hears arrived coming acknowledged)
    (hstate : c'.session.handler.state = c.session.handler.state)
    (hmailbox : c'.mailbox = c.mailbox) (hintake : c'.intake = c.intake) :
    c'.Hears arrived coming acknowledged := by
  rw [Hears, hstate, hmailbox, hintake]
  exact h

/-! ## The other session goes on -/

/-- The other session puts bytes on the pipe, and may begin with another message. -/
lemma Hears.extend (h : c.Hears arrived coming acknowledged) {sent coming' : Bytes}
    {written : List Message} {acknowledged' : Bool}
    (hbytes : sent ++ coming' = coming ++ written.flatMap Message.encode)
    (hwritten : (written = [] ∧ acknowledged' = acknowledged) ∨ ∃ m, written = [m] ∧
      HandshakeState.MaySay acknowledged m.command ∧ acknowledged' = true) :
    c.Hears (arrived ++ sent) coming' acknowledged' := by
  obtain ⟨items, awaited, hholds, hawaits, hexpects⟩ := h
  refine ⟨items, awaited ++ written.map Message.command, hholds, ?_, ?_⟩
  · revert hawaits
    generalize c.intake = intake
    intro hawaits
    cases hawaits with
    | reading hfollows =>
      rw [← List.map_append]
      exact .reading (hfollows.extend hbytes)
    | holding hfollows =>
      rw [List.cons_append, ← List.map_append]
      exact .holding (hfollows.extend hbytes)
    | finished => exact .finished _
  · rw [← List.append_assoc]
    rcases hwritten with ⟨rfl, rfl⟩ | ⟨m, rfl, hsays, rfl⟩
    · rwa [List.map_nil, List.append_nil]
    · exact hexpects.append hsays

/-! ## The intake and the timer -/

/-- A message is offered to the mailbox. -/
lemma hears_offer {reader : FrameReader} {m : Message} {unread : List Message}
    {items : List MailboxItem} (hholds : c.mailbox.Holds items)
    (hfollows : reader.Follows arrived coming unread)
    (hexpects : c.session.handler.state.Expects acknowledged
      (Mailbox.commands items ++ m.command :: unread.map Message.command)) :
    ({ c with
      intake := (Intake.offer reader m c.mailbox).1
      mailbox := (Intake.offer reader m c.mailbox).2 } : Connection).Hears arrived coming
        acknowledged := by
  have hpush := hholds.push (.message m)
  have hoffers := Intake.offers_offer reader m c.mailbox
  generalize Intake.offer reader m c.mailbox = r at hoffers ⊢
  cases hoffers with
  | queued hqueued =>
    rw [hqueued, if_pos rfl] at hpush
    refine ⟨_, _, hpush, .reading hfollows, ?_⟩
    rw [Mailbox.commands_append, List.append_assoc]
    exact hexpects
  | dropped _ hredundant =>
    exact ⟨items, _, hholds, .reading hfollows,
      hexpects.drop (Mailbox.command_of_isRedundant hredundant)⟩
  | blocked => exact ⟨items, _, hholds, .holding hfollows, hexpects⟩
  | closed => exact ⟨items, _, hholds, .finished _, hexpects⟩

/-- The intake makes a step. -/
lemma Hears.intake {inlet : Inlet} (h : c.Hears inlet.arrived coming acknowledged)
    (hending : inlet.ending ≠ some .reset) :
    ({ c with
      intake := (c.intake.step inlet c.mailbox).1
      mailbox := (c.intake.step inlet c.mailbox).2.2 } : Connection).Hears
        (c.intake.step inlet c.mailbox).2.1.arrived coming acknowledged := by
  obtain ⟨items, awaited, hholds, hawaits, hexpects⟩ := h
  revert hawaits
  generalize c.intake = intake
  intro hawaits
  cases hawaits with
  | @reading reader unread hfollows =>
    obtain ⟨next, rest, outcome, hstep, hbrings⟩ :=
      hfollows.step reader.missing inlet.ending.isSome
    rw [← Inlet.eq_ofStream hending] at hstep
    rw [Intake.step, hstep]
    cases hbrings with
    | nothing houtcome hnext =>
      rcases houtcome with rfl | rfl <;> exact ⟨items, _, hholds, .reading hnext, hexpects⟩
    | message hmessages hcommand hnext =>
      subst hmessages
      rw [List.map_cons, ← hcommand] at hexpects
      exact hears_offer hholds hnext hexpects
    | failure => exact ⟨items, _, hholds, .finished _, hexpects⟩
  | holding hfollows => exact hears_offer hholds hfollows hexpects
  | finished => exact ⟨items, _, hholds, .finished _, hexpects⟩

/-- The timer goes off. -/
lemma Hears.ring (h : c.Hears arrived coming acknowledged) :
    ({ c with mailbox := (c.mailbox.push .timer).1 } : Connection).Hears arrived coming
      acknowledged := by
  obtain ⟨items, awaited, hholds, hawaits, hexpects⟩ := h
  obtain ⟨items', hholds', hcommands⟩ := hholds.push_timer
  rw [← hcommands] at hexpects
  exact ⟨items', awaited, hholds', hawaits, hexpects⟩

/-! ## The session takes a turn -/

/-- An item is taken, which is no violation. -/
lemma Hears.receive (h : c.Hears arrived coming acknowledged) {mailbox : Mailbox}
    {item : MailboxItem} (hreceive : c.mailbox.receive = (mailbox, some item)) :
    (∀ command, item.command? = some command →
      gate c.session.handler.state command ≠ .violation) ∧
    ∀ session : Session,
      session.handler.state = c.session.handler.state.afterward item.command? →
      ({ c with session, mailbox } : Connection).Hears arrived coming acknowledged := by
  obtain ⟨items, awaited, hholds, hawaits, hexpects⟩ := h
  obtain ⟨items', before, after, hholds', hcommands', hcommands, hover⟩ := hholds.receive hreceive
  rw [hcommands, List.append_assoc, List.append_assoc] at hexpects
  obtain ⟨hgate, hnext⟩ :=
    HandshakeState.take_item (fun _ => HandshakeState.Expects.take) hexpects hover
  refine ⟨hgate, fun session hstate => ⟨items', awaited, hholds', hawaits, ?_⟩⟩
  rw [hstate, hcommands', List.append_assoc]
  exact hnext

/-- Whatever the session takes up is no violation. -/
lemma Hears.takesUp (h : c.Hears arrived coming acknowledged) {now : Nat} {input : SessionInput}
    (hinput : c.TakesUp now input c') :
    (∀ command, input.command? = some command →
      gate c'.session.handler.state command ≠ .violation) ∧
    ∀ session : Session,
      session.handler.state = c'.session.handler.state.afterward input.command? →
      ({ c' with session } : Connection).Hears arrived coming acknowledged := by
  have hother : ∀ c'' : Connection, input.command? = none → c''.mailbox = c.mailbox →
      c''.intake = c.intake → c''.session = c.session →
      (∀ command, input.command? = some command →
        gate c''.session.handler.state command ≠ .violation) ∧
      ∀ session : Session,
        session.handler.state = c''.session.handler.state.afterward input.command? →
        ({ c'' with session } : Connection).Hears arrived coming acknowledged := by
    intro c'' hnone hmailbox hintake hsession
    rw [hnone, hsession]
    exact ⟨fun command hsome => Option.noConfusion rfl (heq_of_eq hsome),
      fun session hstate => h.congr hstate hmailbox hintake⟩
  cases hinput with
  | written complete => exact hother c rfl rfl rfl rfl
  | next hnext =>
    cases chooses_of_next? hnext with
    | item _ _ hreceive => exact h.receive hreceive
    | answer | command | handshakeTimeout | readerFinished => exact hother _ rfl rfl rfl rfl

/-- A turn in which nothing goes wrong, if it does not end the session. -/
lemma Hears.advance (h : c.Hears arrived coming acknowledged) {now : Nat} {input : SessionInput}
    (hinput : c.TakesUp now input c') (hdue : c'.session.Due input)
    (hsmooth : input.isSmooth = true) (settings : Settings) {ledger : Ledger} {moment : Moment}
    (hphase : (c'.session.step ledger moment input).1.phase ≠ .over) :
    (c'.advance settings ledger moment input).1.Hears arrived coming acknowledged := by
  have hstate := (Session.state_step ledger moment hdue hsmooth).resolve_left hphase
  refine ((h.takesUp hinput).2 _ hstate).congr rfl ?_ rfl
  rw [Connection.advance]
  dsimp only
  rw [Session.isOver, beq_eq_false_iff_ne.mpr hphase]
  exact if_neg Bool.false_ne_true

/-! ## Silence -/

/-- With nothing on its way the handler has heard all. -/
lemma Hears.of_silence (h : c.Hears [] [] acknowledged) {reader : FrameReader}
    (hintake : c.intake = .reading reader) (hreceived : reader.received = [])
    (hqueued : c.mailbox.queued = []) : c.session.handler.state.Expects acknowledged [] := by
  obtain ⟨items, awaited, hholds, hawaits, hexpects⟩ := h
  rw [hholds.eq_nil hqueued] at hexpects
  rw [hintake] at hawaits
  cases hawaits with
  | reading hfollows =>
    rw [hfollows.eq_nil hreceived] at hexpects
    exact hexpects

end Connection

end PeerNet
