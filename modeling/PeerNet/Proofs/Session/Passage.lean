import PeerNet.Proofs.Session.Step

/-!
# How a session gets through the handshake

Two notices of a session matter to who its peer is: that the peer introduced itself, and that it is
ready.  Each of them, and the verdict that comes between, takes the session one step further
(`Session.Passage`); whatever else happens to a session leaves the peer's version alone and takes it
nowhere, unless to its end.  So a session is admitted (`Session.IsAdmitted`) only by the verdict,
and ready only when it is admitted.
-/

namespace PeerNet

/-- Whether a notice is one of those that tell who the peer is. -/
def PeerNotice.isOfHandshake : PeerNotice → Bool
  | .introduced _ | .ready => true
  | .filterChanged _ | .remoteHeight _ | .suggested _ | .delivered _ | .addressRequest
  | .disconnected => false

namespace Session

open HandlerEvent (AllOperational)

/-- Whether the verdict on the peer is in, and the peer may stay. -/
def IsAdmitted (s : Session) : Prop :=
  (s.handler.state = .awaitingVerack ∧ s.phase ≠ .awaitingVerdict) ∨ s.handler.state = .ready

/-- Whether effects tell the manager nothing about who the peer is. -/
def Quiet (effects : List SessionEffect) : Prop :=
  ∀ n, .notify n ∈ effects → n.isOfHandshake = false

/-- How far one thing that happens takes a session. -/
inductive Passage (s : Session) (input : SessionInput) (r : Session × List SessionEffect) : Prop
  | steady (hversion : r.1.handler.version = s.handler.version)
    (hnew : r.1.handler.state = .awaitingVersion → s.handler.state = .awaitingVersion)
    (hadmitted : r.1.IsAdmitted → s.IsAdmitted) (hquiet : Quiet r.2)
  | introduced (v : Version) (hnew : s.handler.state = .awaitingVersion)
    (hversion : r.1.handler.version = some v) (hstate : r.1.handler.state = .awaitingVerack)
    (hphase : r.1.phase = .awaitingVerdict) (heffects : r.2 = [.notify (.introduced v)])
  | admitted (hinput : input = .answer (.verdict (.ok ())))
    (hversion : r.1.handler.version = s.handler.version)
    (hstate : r.1.handler.state = .awaitingVerack) (hquiet : Quiet r.2)
  | completed (hadmitted : s.IsAdmitted) (hversion : r.1.handler.version = s.handler.version)
    (hstate : r.1.handler.state = .ready)
    (hready : ∀ n, .notify n ∈ r.2 → n = .ready ∧
      ∃ v, s.handler.version = some v ∧ .report (.peerReady v) ∈ r.2)

variable {s : Session} {input : SessionInput} {ledger : Ledger} {moment : Moment}
  {r : Session × List SessionEffect}

/-! ## Effects -/

lemma quiet_nil : Quiet [] := fun _ => (absurd · List.not_mem_nil)

/-- Effects stay quiet if one more tells nothing about who the peer is. -/
lemma Quiet.cons {effect : SessionEffect} {effects : List SessionEffect} (h : Quiet effects)
    (heffect : ∀ n, effect = .notify n → n.isOfHandshake = false) : Quiet (effect :: effects) := by
  intro n hn
  rcases List.mem_cons.mp hn with heq | hn
  · exact heffect n heq.symm
  · exact h n hn

lemma quiet_write (m : Message) : Quiet [.write m] :=
  quiet_nil.cons fun _ hn => SessionEffect.noConfusion hn

/-- What a session reports it does not tell the manager. -/
lemma notify_notMem_reports (reports : List TaskReport) (n : PeerNotice) :
    .notify n ∉ reports.map SessionEffect.report := by
  intro hn
  obtain ⟨report, -, heq⟩ := List.mem_map.mp hn
  exact SessionEffect.noConfusion heq

/-- Reports tell the manager nothing about who the peer is. -/
lemma Quiet.after_reports {effects : List SessionEffect} (h : Quiet effects)
    (reports : List TaskReport) : Quiet (reports.map SessionEffect.report ++ effects) := by
  intro n hn
  rcases List.mem_append.mp hn with hn | hn
  · exact absurd hn (notify_notMem_reports reports n)
  · exact h n hn

/-! ## What takes a session nowhere -/

/-- The end of a session, and its farewell, take it nowhere. -/
lemma Passage.of_stopped (hversion : r.1.handler.version = s.handler.version)
    (hstopped : r.1.handler.state = .stopped) (hquiet : Quiet r.2) : s.Passage input r := by
  refine .steady hversion (fun hnew => ?_) (fun hadmitted => ?_) hquiet
  · rw [hstopped] at hnew
    exact HandshakeState.noConfusion hnew
  · rcases hadmitted with ⟨hstate, -⟩ | hstate
    · exact HandshakeState.noConfusion (hstopped.symm.trans hstate)
    · exact HandshakeState.noConfusion (hstopped.symm.trans hstate)

/-- So does whatever leaves the handler in its state, unless it is a verdict. -/
lemma Passage.of_state_eq (hversion : r.1.handler.version = s.handler.version)
    (hstate : r.1.handler.state = s.handler.state)
    (hasked : s.phase = .awaitingVerdict → r.1.phase = .awaitingVerdict) (hquiet : Quiet r.2) :
    s.Passage input r := by
  refine .steady hversion (fun hnew => hstate.symm.trans hnew) (fun hadmitted => ?_) hquiet
  refine hadmitted.imp (fun ⟨hwaits, hphase⟩ => ⟨hstate.symm.trans hwaits, ?_⟩) hstate.symm.trans
  exact fun hstill => hphase (hasked hstill)

/-- The last that the manager hears of a session is that it is over. -/
lemma quiet_finish (s : Session) : Quiet s.finish.2 := by
  intro n hn
  have hlast : n = .disconnected := by
    cases hannounced : s.announced <;> simpa [finish, hannounced] using hn
  rw [hlast]
  rfl

/-- A session that ends gets no further with its peer. -/
lemma finish_passage {s' : Session} (hversion : s'.handler.version = s.handler.version) :
    s.Passage input s'.finish := .of_stopped hversion rfl s'.quiet_finish

/-- A session that says farewell gets no further with its peer. -/
lemma part_passage (reason : DisconnectReason) : s.Passage input (s.part reason) := by
  refine .of_stopped rfl rfl (quiet_nil.cons fun n hn => ?_)
  exact SessionEffect.noConfusion hn

/-- Everyday traffic says nothing about who the peer is. -/
lemma carryOut_operational {events : List HandlerEvent} (hevents : AllOperational events)
    (s : Session) :
    (s.carryOut events).1.handler = s.handler ∧ Quiet (s.carryOut events).2 ∧
      (s.carryOut events).1.phase ≠ .awaitingVerdict := by
  induction events with
  | nil => exact ⟨rfl, quiet_nil, SessionPhase.noConfusion⟩
  | cons event rest ih =>
    obtain ⟨hevent, hrest⟩ := List.forall_mem_cons.mp hevents
    obtain ⟨hhandler, hquiet, hphase⟩ := ih hrest
    have hfirst : ∀ n : PeerNotice, n.isOfHandshake = false →
        Quiet (first (.notify n) (s.carryOut rest)).2 := by
      intro n hn
      refine hquiet.cons fun n' heq => ?_
      cases heq
      exact hn
    cases event with
    | send m =>
      exact ⟨rfl, quiet_write m, SessionPhase.noConfusion⟩
    | addressRequest =>
      refine ⟨rfl, quiet_nil.cons fun n hn => ?_, SessionPhase.noConfusion⟩
      cases hn
      rfl
    | filterChanged f => exact ⟨hhandler, hfirst _ rfl, hphase⟩
    | peers records => exact ⟨hhandler, hfirst _ rfl, hphase⟩
    | relay inventory => exact ⟨hhandler, hfirst _ rfl, hphase⟩
    | remoteHeight height => exact ⟨hhandler, hfirst _ rfl, hphase⟩
    | versionReceived v => exact Bool.noConfusion hevent
    | ready v => exact Bool.noConfusion hevent
    | stop => exact Bool.noConfusion hevent

/-- A farewell of the peer is the end. -/
lemma carryOut_farewell_passage {events : List HandlerEvent} (hevents : Handler.Farewell events)
    {s' : Session} (hversion : s'.handler.version = s.handler.version)
    (reports : List TaskReport) :
    s.Passage input
      ((s'.carryOut events).1, reports.map SessionEffect.report ++ (s'.carryOut events).2) := by
  have hend : s'.handler.stop.version = s.handler.version := hversion
  cases hevents with
  | plain => exact .of_stopped hend rfl (s'.quiet_finish.after_reports reports)
  | suggesting records =>
    refine .of_stopped hend rfl (Quiet.after_reports ?_ reports)
    refine s'.quiet_finish.cons fun n heq => ?_
    cases heq
    rfl

/-! ## What happens to a session -/

/-- What is not due a session has no use for. -/
lemma step_of_not_due (hdue : ¬ s.Due input) : s.step ledger moment input = (s, []) := by
  unfold step
  split
  · next hphase => exact absurd (by simp [Due, isWriting, hphase]) hdue
  · next hphase => exact absurd (by simp [Due, isWriting, hphase]) hdue
  · next hphase => exact absurd (by simp [Due, isWriting, hphase]) hdue
  · next hphase => exact absurd (by simp [Due, isWriting, hphase]) hdue
  · next hphase => exact absurd (by simp [Due, isWriting, hphase]) hdue
  · next hphase => exact absurd (.inl hphase) hdue
  · next hphase => exact absurd (.inr hphase) hdue
  · next hphase => exact absurd hphase hdue
  · next hphase => exact absurd hphase hdue
  · next hphase => exact absurd hphase hdue
  · next hphase => exact absurd hphase hdue
  · rfl

/-- A session that is over stays as it is. -/
lemma step_of_over (hover : s.phase = .over) : s.step ledger moment input = (s, []) :=
  step_of_not_due fun hdue => hdue.ne_over hover

/-- A session whose parts fit together stays so, whatever happens to it. -/
lemma Coherent.step (h : s.Coherent) (ledger : Ledger) (moment : Moment) (input : SessionInput) :
    (s.step ledger moment input).1.Coherent := by
  by_cases hdue : s.Due input
  · exact (step_proceeds h hdue).coherent
  · rwa [step_of_not_due hdue]

/-- Everyday traffic takes a session nowhere. -/
lemma carryOut_passage {events : List HandlerEvent} (hevents : AllOperational events)
    {s' : Session} (hversion : s'.handler.version = s.handler.version)
    (hstate : s'.handler.state = s.handler.state) (hasked : s.phase ≠ .awaitingVerdict)
    (reports : List TaskReport) :
    s.Passage input
      ((s'.carryOut events).1, reports.map SessionEffect.report ++ (s'.carryOut events).2) := by
  obtain ⟨hhandler, hquiet, -⟩ := carryOut_operational hevents s'
  refine .of_state_eq ?_ ?_ (fun h => absurd h hasked) (hquiet.after_reports reports)
  · exact (congrArg Handler.version hhandler).trans hversion
  · exact (congrArg Handler.state hhandler).trans hstate

/-- A session goes on with its agenda. -/
lemma resume_passage (hagenda : AllOperational s.agenda) (hasked : s.phase ≠ .awaitingVerdict) :
    s.Passage input s.resume := carryOut_passage hagenda rfl rfl hasked []

/-- What leaves the session as it is takes it nowhere. -/
lemma unchanged_passage : s.Passage input (s, []) := .of_state_eq rfl rfl id quiet_nil

/-- The end of a write takes a session on to what it had left to do. -/
lemma written_passage (h : s.Coherent) (hwriting : s.isWriting = true) (complete : Bool) :
    s.Passage input (s.step ledger moment (.written complete)) := by
  have hasked : s.phase ≠ .awaitingVerdict := by
    intro hphase
    simp [isWriting, hphase] at hwriting
  cases complete with
  | false =>
    rw [step_written_false hwriting]
    exact finish_passage rfl
  | true =>
    cases h with
    | opening hphase =>
      have hstep : s.step ledger moment (.written true) = ({ s with phase := .idle }, []) := by
        unfold step
        rw [hphase]
      rw [hstep]
      exact .of_state_eq rfl rfl (fun h => absurd h hasked) quiet_nil
    | acknowledging hphase hstate hagenda =>
      have hstep : s.step ledger moment (.written true) = s.resume := by
        unfold step
        rw [hphase]
      rw [hstep]
      refine resume_passage ?_ hasked
      rw [hagenda]
      exact List.forall_mem_nil _
    | writing hphase hstate hagenda =>
      have hstep : s.step ledger moment (.written true) = s.resume := by
        unfold step
        rw [hphase]
      rw [hstep]
      exact resume_passage hagenda hasked
    | parting hphase =>
      have hstep : s.step ledger moment (.written true) = s.finish := by
        unfold step
        rw [hphase]
      rw [hstep]
      exact finish_passage rfl
    | idle hphase | judging hphase | asking hphase | gone hphase =>
      simp [isWriting, hphase] at hwriting

/-- An answer takes a session past the introduction, or to its end. -/
lemma answer_passage (h : s.Coherent)
    (hdue : s.phase = .awaitingVerdict ∨ s.phase = .awaitingAddresses) (a : ManagerAnswer) :
    s.Passage (.answer a) (s.step ledger moment (.answer a)) := by
  cases h with
  | judging hphase hstate hagenda =>
    rcases a with (reason | ⟨⟩) | records
    · have hstep : s.step ledger moment (.answer (.verdict (.error reason))) = s.part reason := by
        unfold step
        rw [hphase]
        rfl
      rw [hstep]
      exact part_passage reason
    · have hstep : s.step ledger moment (.answer (.verdict (.ok ()))) = s.send .verack := by
        unfold step
        rw [hphase]
        rfl
      rw [hstep]
      exact .admitted rfl rfl hstate (quiet_write .verack)
    · have hstep : s.step ledger moment (.answer (.addresses records)) = (s, []) := by
        unfold step
        rw [hphase]
      rw [hstep]
      exact unchanged_passage
  | asking hphase hstate hagenda =>
    have hasked : s.phase ≠ .awaitingVerdict := by
      rw [hphase]
      exact SessionPhase.noConfusion
    rcases a with v | (- | ⟨record, records⟩)
    · have hstep : s.step ledger moment (.answer (.verdict v)) = (s, []) := by
        unfold step
        rw [hphase]
      rw [hstep]
      exact unchanged_passage
    · have hstep : s.step ledger moment (.answer (.addresses [])) = s.resume := by
        unfold step
        rw [hphase]
        rfl
      rw [hstep]
      exact resume_passage hagenda hasked
    · have hstep : s.step ledger moment (.answer (.addresses (record :: records))) =
          s.send (.addr (record :: records)) := by
        unfold step
        rw [hphase]
        rfl
      rw [hstep]
      exact .of_state_eq rfl rfl (fun h => absurd h hasked) (quiet_write _)
  | opening hphase | idle hphase | acknowledging hphase | writing hphase | parting hphase
  | gone hphase => simp [hphase] at hdue

/-- A command takes a session no further with its peer. -/
lemma command_passage (hidle : s.phase ≠ .awaitingVerdict) (c : SessionCommand) :
    s.Passage input (s.onCommand c) := by
  cases c with
  | send m =>
    rw [onCommand]
    split
    · exact .of_state_eq rfl rfl (fun h => absurd h hidle) (quiet_write m)
    · exact unchanged_passage
  | relay kind hash =>
    obtain ⟨⟨known, hknown⟩, -⟩ := Handler.relay_spec s.handler kind hash
    rw [onCommand]
    rcases hrelay : s.handler.relay kind hash with ⟨handler, _ | m⟩ <;> rw [hrelay] at hknown <;>
      subst hknown
    · exact .of_state_eq rfl rfl (fun h => absurd h hidle) quiet_nil
    · exact .of_state_eq rfl rfl (fun h => absurd h hidle) (quiet_write m)
  | disconnect reason => exact part_passage reason

/-- The acknowledgement of the peer makes a session ready, and the manager and the coordinator hear
of it if the peer's version is there. -/
lemma completed_passage (hadmitted : s.IsAdmitted) {s' : Session}
    (hversion : s'.handler.version = s.handler.version) (hstate : s'.handler.state = .ready) :
    s.Passage input (s'.carryOut (s.handler.version.map HandlerEvent.ready).toList) := by
  cases hknown : s.handler.version with
  | none => exact .completed hadmitted hversion hstate fun n hn => absurd hn List.not_mem_nil
  | some v =>
    refine .completed hadmitted hversion hstate fun n hn => ?_
    have heffects : (s'.carryOut ((some v).map HandlerEvent.ready).toList).2 =
        [.report (.peerReady v), .notify .ready] := rfl
    rw [heffects] at hn ⊢
    refine ⟨by simpa using hn, v, hknown, List.mem_cons_self⟩

/-- An item takes a session as far as its handler gets with it. -/
lemma item_passage (h : s.Coherent) (hphase : s.phase = .idle) (i : MailboxItem) :
    s.Passage input (s.onItem ledger moment i) := by
  have hasked : s.phase ≠ .awaitingVerdict := by
    rw [hphase]
    exact SessionPhase.noConfusion
  cases i with
  | timer =>
    exact .of_state_eq rfl rfl (fun h => absurd h hasked) quiet_nil
  | message m =>
    have hhandles := Handler.handles_handleMessage s.handler ledger moment m
    unfold onItem
    rw [Handler.handle]
    generalize s.handler.handleMessage ledger moment m = handled at hhandles
    cases hhandles with
    | ignored _ hstopped => exact absurd hstopped (h.of_idle hphase).1
    | parted d =>
      have hversion : ({ s with handler := (s.handler.onDisconnect d).handler } :
          Session).handler.version = s.handler.version := rfl
      exact carryOut_farewell_passage (Handler.farewell_onDisconnect s.handler d) hversion _
    | introduced v hnew => exact .introduced v hnew rfl rfl rfl rfl
    | acknowledged hwaited =>
      exact completed_passage (.inl ⟨hwaited, hasked⟩) rfl rfl
    | dispatched _ hready hcommand =>
      obtain ⟨hstate, hversion, hevents⟩ := Handler.dispatch_spec s.handler ledger moment m
      exact carryOut_passage (s := s) hevents hversion hstate hasked _
    | violated => exact finish_passage rfl

/-- Whatever happens to a session takes it one step through the handshake at most. -/
lemma step_passage (h : s.Coherent) (ledger : Ledger) (moment : Moment) (input : SessionInput) :
    s.Passage input (s.step ledger moment input) := by
  by_cases hdue : s.Due input
  · cases input with
    | written complete => exact written_passage h hdue complete
    | answer a => exact answer_passage h hdue a
    | command c =>
      have hphase : s.phase = .idle := hdue
      have hstep : s.step ledger moment (.command c) = s.onCommand c := by
        unfold step
        rw [hphase]
      rw [hstep]
      refine command_passage ?_ c
      rw [hphase]
      exact SessionPhase.noConfusion
    | item i =>
      rw [step_item hdue]
      exact item_passage h hdue i
    | handshakeTimeout =>
      have hphase : s.phase = .idle := hdue
      unfold step
      rw [hphase]
      dsimp only
      split
      · exact unchanged_passage
      · exact part_passage _
    | readerFinished =>
      rw [step_readerFinished hdue]
      exact finish_passage rfl
  · rw [step_of_not_due hdue]
    exact unchanged_passage

end Session

end PeerNet
