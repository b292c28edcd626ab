import PeerNet.Proofs.Handler.Expectation
import PeerNet.Proofs.Session.History

/-!
# What a session says when nothing goes wrong

No write fails, the time for the handshake does not run out, and the manager lets the peer stay and
has nothing written but everyday traffic (`SessionInput.isSmooth`).  What a session says after its
version is then short to tell: nothing until the verdict on the peer is there, and from then on an
acknowledgement and everyday traffic (`Session.Speaks`).  This is what the session at the other end
of the stream can rely on.

Of the handler it is enough to know that nothing but a message of the peer moves its state, and that
such a message moves it as the gate says (`Session.state_step`).
-/

namespace PeerNet

namespace SessionInput

/-- Whether something happens to a session that is as it should be. -/
def isSmooth : SessionInput → Bool
  | .written complete => complete
  | .answer (.verdict (.error _)) => false
  | .answer (.verdict (.ok ())) | .answer (.addresses _) => true
  | .command (.send m) => m.command.isOperational
  | .command (.relay _ _) => true
  | .command (.disconnect _) => false
  | .item _ | .readerFinished => true
  | .handshakeTimeout => false

/-- The command of the peer that is taken up. -/
def command? : SessionInput → Option Command
  | .item i => i.command?
  | .written _ | .answer _ | .command _ | .handshakeTimeout | .readerFinished => none

end SessionInput

namespace Session

variable {s : Session} {input : SessionInput} {ledger : Ledger} {moment : Moment} {t : Turn}

/-! ## The state of the handler -/

/-- Events leave the handler alone, unless one of them ends the session. -/
lemma handler_carryOut (s : Session) (events : List HandlerEvent) :
    (s.carryOut events).1.phase = .over ∨ (s.carryOut events).1.handler = s.handler := by
  induction events generalizing s with
  | nil => exact .inr rfl
  | cons event rest ih =>
    cases event with
    | send m => exact .inr rfl
    | versionReceived v => exact .inr rfl
    | addressRequest => exact .inr rfl
    | ready v => exact ih { s with announced := true }
    | filterChanged f => exact ih s
    | peers records => exact ih s
    | relay inventory => exact ih s
    | remoteHeight height => exact ih s
    | stop => exact .inl rfl

/-- A session whose handler made something of an item. -/
lemma state_onItem (s : Session) (ledger : Ledger) (moment : Moment) (i : MailboxItem) :
    (s.onItem ledger moment i).1.phase = .over ∨
      (s.onItem ledger moment i).1.handler.state = s.handler.state.afterward i.command? := by
  have hstate := s.handler.state_handle ledger moment i
  rw [onItem]
  generalize s.handler.handle ledger moment i = handled at hstate
  cases handled with
  | violation handler v => exact .inl rfl
  | done r =>
    refine (handler_carryOut { s with handler := r.handler } r.events).imp_right fun hsame => ?_
    rw [← hstate]
    exact congrArg Handler.state hsame

/-- What is no item leaves the state of the handler alone, unless the session ends. -/
lemma state_step_of_ne_item (hitem : ∀ i, input ≠ .item i) (hsmooth : input.isSmooth = true) :
    (s.step ledger moment input).1.phase = .over ∨
      (s.step ledger moment input).1.handler.state = s.handler.state := by
  have hagenda : s.resume.1.phase = .over ∨ s.resume.1.handler.state = s.handler.state :=
    (handler_carryOut s s.agenda).imp_right fun hsame => congrArg Handler.state hsame
  unfold step
  split
  · exact .inr rfl
  · exact hagenda
  · exact .inl rfl
  · exact .inl rfl
  · exact .inl rfl
  · next v _ =>
    cases v with
    | ok => exact .inr rfl
    | error reason => exact absurd hsmooth Bool.false_ne_true
  · next records _ =>
    cases records with
    | nil => exact hagenda
    | cons r rest => exact .inr rfl
  · next c _ =>
    right
    cases c with
    | send m =>
      rw [onCommand]
      split <;> rfl
    | relay kind hash =>
      obtain ⟨⟨known, hknown⟩, -⟩ := Handler.relay_spec s.handler kind hash
      rw [onCommand]
      rcases hrelay : s.handler.relay kind hash with ⟨handler, _ | m⟩ <;>
      · rw [hrelay] at hknown
        subst hknown
        rfl
    | disconnect reason => exact absurd hsmooth Bool.false_ne_true
  · next i _ => exact absurd rfl (hitem i)
  · exact absurd hsmooth Bool.false_ne_true
  · exact .inl rfl
  · exact .inr rfl

/-- Nothing but a message of the peer moves the state of the handler, unless the session ends. -/
lemma state_step (ledger : Ledger) (moment : Moment) (hdue : s.Due input)
    (hsmooth : input.isSmooth = true) :
    (s.step ledger moment input).1.phase = .over ∨
      (s.step ledger moment input).1.handler.state =
        s.handler.state.afterward input.command? := by
  cases input with
  | item i =>
    rw [step_item hdue]
    exact state_onItem s ledger moment i
  | written _ | answer _ | command _ | handshakeTimeout | readerFinished =>
    exact state_step_of_ne_item (fun i => SessionInput.noConfusion) hsmooth

/-! ## Before the verdict -/

/-- A session that is at work has its verdict. -/
lemma Coherent.not_isUndecided (h : s.Coherent) (hready : s.handler.state = .ready) :
    ¬ s.IsUndecided := by
  rintro (hasked | hnew)
  · cases h with
    | judging _ hstate => exact HandshakeState.noConfusion (hready.symm.trans hstate)
    | opening hphase | idle hphase | acknowledging hphase | writing hphase | asking hphase
    | parting hphase | gone hphase => exact SessionPhase.noConfusion (hasked.symm.trans hphase)
  · exact HandshakeState.noConfusion (hready.symm.trans hnew)

/-- The first message of a peer is its version, about which the manager is asked, or it is the
last. -/
lemma undecided_item (h : s.Coherent) (hphase : s.phase = .idle)
    (hnew : s.handler.state = .awaitingVersion) (m : Message) :
    (s.step ledger moment (.item (.message m))).1.phase = .awaitingVerdict ∨
      (s.step ledger moment (.item (.message m))).1.phase = .over := by
  by_cases hversion : m.command = .version
  · left
    cases m <;> simp only [Message.command, reduceCtorEq] at hversion
    case version v =>
      rw [step_item hphase]
      dsimp only [onItem, Handler.handle]
      unfold Handler.handleMessage
      rw [hnew]
      rfl
  · right
    by_cases hdisconnect : m.command = .disconnect
    · cases m <;> simp only [Message.command, reduceCtorEq] at hdisconnect
      case disconnect d => exact phase_step_of_ending h hphase .disconnect
    · refine phase_step_of_ending h hphase (.violation ?_)
      rw [hnew]
      cases hc : m.command <;> first | rfl | exact absurd hc hversion | exact absurd hc hdisconnect

/-- Without its verdict a session stays so, or ends, or the verdict comes. -/
lemma undecided_step (ledger : Ledger) (moment : Moment) (h : s.Coherent) (hdue : s.Due input)
    (hsmooth : input.isSmooth = true) (hundecided : s.IsUndecided) :
    (s.step ledger moment input).1.IsUndecided ∨ (s.step ledger moment input).1.phase = .over ∨
      (s.phase = .awaitingVerdict ∧ input = .answer (.verdict (.ok ()))) := by
  rcases hundecided with hasked | hnew
  · cases input with
    | answer a =>
      rcases a with (reason | ⟨⟩) | records
      · exact absurd hsmooth Bool.false_ne_true
      · exact .inr (.inr ⟨hasked, rfl⟩)
      · have hsame : s.step ledger moment (.answer (.addresses records)) = (s, []) := by
          unfold step
          rw [hasked]
        rw [hsame]
        exact .inl (.inl hasked)
    | written complete =>
      rw [Due, isWriting, hasked] at hdue
      exact Bool.noConfusion hdue
    | command _ | item _ | handshakeTimeout | readerFinished =>
      exact SessionPhase.noConfusion (hasked.symm.trans hdue)
  · rcases state_step ledger moment hdue hsmooth with hover | hstate
    · exact .inr (.inl hover)
    · cases hcommand : input.command? with
      | none =>
        rw [hcommand] at hstate
        exact .inl (.inr (hstate.trans hnew))
      | some c =>
        cases input with
        | item i =>
          cases i with
          | timer => exact Option.noConfusion rfl (heq_of_eq hcommand)
          | message m => exact (undecided_item h hdue hnew m).imp .inl .inl
        | written _ | answer _ | command _ | handshakeTimeout | readerFinished =>
          exact Option.noConfusion rfl (heq_of_eq hcommand)

/-! ## What is said -/

/-- What a session has said after its version. -/
inductive Speaks (s : Session) : List Message → Prop
  | silent (hundecided : s.IsUndecided ∨ s.phase = .over) : Speaks s []
  | acknowledged {traffic : List Message} (hdecided : ¬ s.IsUndecided)
    (htraffic : ∀ m ∈ traffic, m.command.isOperational = true) : Speaks s (.verack :: traffic)

/-- As long as all goes well there is no cause for a farewell. -/
lemma Parting.not_smooth {reason : DisconnectReason} (h : s.Parting input reason) :
    input.isSmooth = false := by
  cases h with
  | commanded hinput | refused hinput | late hinput => rw [hinput]; rfl

/-- The message of a turn that goes well is the acknowledgement, which comes with the verdict, or
everyday traffic. -/
lemma Turn.written_of_smooth (hcoherent : t.before.Coherent) (hdue : t.before.Due t.input)
    (hsmooth : t.input.isSmooth = true) :
    t.written = [] ∨
      (t.written = [.verack] ∧ t.before.IsUndecided ∧ ¬ t.after.IsUndecided) ∨
      ∃ m, t.written = [m] ∧ m.command.isOperational = true ∧ ¬ t.before.IsUndecided := by
  refine (Turn.written_spec hcoherent hdue).imp_right fun ⟨m, hwritten, hreason, _⟩ => ?_
  cases hreason with
  | forwarded hinput hready =>
    rw [hinput] at hsmooth
    exact .inr ⟨m, hwritten, hsmooth, hcoherent.not_isUndecided hready⟩
  | working hcommand hready =>
    exact .inr ⟨m, hwritten, hcommand, hcoherent.not_isUndecided hready⟩
  | admitted _ hasked _ hdecided => exact .inl ⟨hwritten, .inl hasked, hdecided⟩
  | parted hcause => exact absurd hsmooth (Bool.eq_false_iff.mp hcause.not_smooth)

/-- Every turn leaves a session that has said only what it may. -/
lemma Speaks.turn {said : List Message} (h : t.before.Speaks said)
    (hcoherent : t.before.Coherent) (hdue : t.before.Due t.input)
    (hsmooth : t.input.isSmooth = true) : t.after.Speaks (said ++ t.written) := by
  have hwritten := Turn.written_of_smooth hcoherent hdue hsmooth
  cases h with
  | silent hundecided =>
    have hundecided : t.before.IsUndecided := hundecided.resolve_right hdue.ne_over
    rw [List.nil_append]
    rcases hwritten with hnone | ⟨hverack, -, hdecided⟩ | ⟨m, -, -, hdecided⟩
    · rw [hnone]
      rcases undecided_step t.ledger t.moment hcoherent hdue hsmooth hundecided with
        hstill | hover | ⟨hasked, hadmitted⟩
      · exact .silent (.inl hstill)
      · exact .silent (.inr hover)
      · have hresult : t.result = t.before.onAnswer (.verdict (.ok ())) := by
          rw [Turn.result, hadmitted]
          unfold step
          rw [hasked]
        rw [Turn.written, hresult] at hnone
        exact absurd hnone (List.cons_ne_nil _ _)
    · rw [hverack]
      exact .acknowledged hdecided (List.forall_mem_nil _)
    · exact absurd hundecided hdecided
  | @acknowledged traffic hdecided htraffic =>
    have hdecided' : ¬ t.after.IsUndecided := fun hundecided =>
      hdecided ((step_proceeds hcoherent hdue).follows.undecided hundecided)
    refine .acknowledged hdecided' fun m hm => ?_
    rcases List.mem_append.mp hm with hm | hm
    · exact htraffic m hm
    · rcases hwritten with hnone | ⟨-, hundecided, -⟩ | ⟨m', hone, hcommand, -⟩
      · rw [hnone] at hm
        exact absurd hm List.not_mem_nil
      · exact absurd hundecided hdecided
      · rw [hone] at hm
        rwa [List.mem_singleton.mp hm]

/-- If nothing ever went wrong at a session it has said what it should. -/
lemma History.speaks {settings : Settings} {unixTime : UInt32} {turns : List Turn}
    (h : History settings ledger unixTime turns s)
    (hsmooth : ∀ t ∈ turns, t.input.isSmooth = true) : s.Speaks (turns.flatMap Turn.written) := by
  induction h with
  | start => exact .silent (.inl (.inr rfl))
  | @turn turns t h hdue ih =>
    obtain ⟨hearlier, hlast⟩ := List.forall_mem_append.mp hsmooth
    rw [List.flatMap_append, List.flatMap_singleton]
    exact (ih hearlier).turn h.coherent hdue (hlast t (List.mem_singleton_self t))

/-- What is said next is what a peer may say. -/
lemma Speaks.maySay {said : List Message} (h : t.before.Speaks said)
    (hcoherent : t.before.Coherent) (hdue : t.before.Due t.input)
    (hsmooth : t.input.isSmooth = true) :
    t.written = [] ∨ ∃ m, t.written = [m] ∧ HandshakeState.MaySay (!said.isEmpty) m.command := by
  refine (Turn.written_of_smooth hcoherent hdue hsmooth).imp_right ?_
  rintro (⟨hverack, hundecided, -⟩ | ⟨m, hone, hcommand, hdecided⟩)
  · cases h with
    | silent => exact ⟨_, hverack, rfl⟩
    | acknowledged hdecided => exact absurd hundecided hdecided
  · cases h with
    | silent hundecided => exact absurd (hundecided.resolve_right hdue.ne_over) hdecided
    | acknowledged => exact ⟨m, hone, hcommand⟩

/-! ## Violations -/

/-- The violation that a turn comes to, if it does. -/
def Turn.violation? (t : Turn) : Option ProtocolViolation :=
  match t.input with
  | .item i => (t.before.handler.handle t.ledger t.moment i).violation?
  | .written _ | .answer _ | .command _ | .handshakeTimeout | .readerFinished => none

/-- A command that passes the gate is no violation. -/
lemma Turn.violation?_eq_none
    (hgate : ∀ c, t.input.command? = some c → gate t.before.handler.state c ≠ .violation) :
    t.violation? = none := by
  rw [Turn.violation?]
  split
  · next i hinput =>
    rw [hinput] at hgate
    exact Handler.violation?_handle hgate t.ledger t.moment
  all_goals rfl

end Session

end PeerNet
