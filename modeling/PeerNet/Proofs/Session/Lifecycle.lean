import PeerNet.Proofs.Session.History
import PeerNet.Proofs.Session.Passage

/-!
# The beginning and the end of a session, as others hear of them

The coordinator is told when a peer is ready and when it has gone, the manager when the session is
over.  These are the milestones of a session.  In one turn it passes none, or that its peer is
ready, or those of its end, and then nothing comes after them (`Session.Stage`).  What is kept in
the course of its turns is that the milestones so far and the session fit together
(`Session.Milestones`): every exit of a session leads through the same end, and what that reports
depends on one flag.
-/

namespace PeerNet

/-- Whether a report is about the presence of a peer and not about its work. -/
def TaskReport.isOfPresence : TaskReport → Bool
  | .peerReady _ | .peerDisconnected => true
  | .newTasks _ | .taskCompleted _ | .headersReceived _ | .inventoryReceived _
  | .heightUpdated _ => false

/-- Whether an effect tells others that the peer is ready, or that the session is over. -/
def SessionEffect.isMilestone : SessionEffect → Bool
  | .report r => r.isOfPresence
  | .notify n => n == .disconnected
  | .write _ | .close => false

/-- Work on a message is not about the presence of the peer. -/
lemma Handler.isOfPresence_of_mem_dispatch (h : Handler) (ledger : Ledger) (moment : Moment)
    (m : Message) :
    ∀ report ∈ (h.dispatch ledger moment m).reports, report.isOfPresence = false := by
  cases m with
  | inv l =>
    rw [dispatch, onInv]
    dsimp only
    split
    · exact List.forall_mem_nil _
    · exact List.forall_mem_singleton.mpr rfl
  | headers hs =>
    rw [dispatch]
    dsimp only
    split
    · exact List.forall_mem_nil _
    · exact List.forall_mem_singleton.mpr rfl
  | transaction tx =>
    rw [dispatch]
    split
    · exact List.forall_mem_nil _
    · exact List.forall_mem_singleton.mpr rfl
  | filterAdd f =>
    rw [dispatch, onFilterAdd]
    split <;> exact List.forall_mem_nil _
  | block b | consensus c => exact List.forall_mem_singleton.mpr rfl
  | addr | getAddr | ping | pong | getBlocks | getHeaders | getBlockData | getData | mempool
  | filterLoad | filterClear | version | verack | disconnect | notFound | reject | merkleBlock
  | alert => exact List.forall_mem_nil _

namespace Session

open HandlerEvent (AllOperational)

/-- What others hear of the beginning and the end of a session. -/
def milestones (effects : List SessionEffect) : List SessionEffect :=
  effects.filter SessionEffect.isMilestone

/-- What they hear at its end. -/
def closing (announced : Bool) : List SessionEffect :=
  (if announced then [.report .peerDisconnected] else []) ++ [.notify .disconnected]

/-- How one thing that happens takes a session on that is not over. -/
inductive Stage (s : Session) (r : Session × List SessionEffect) : Prop
  | goesOn (hphase : r.1.phase ≠ .over) (hannounced : r.1.announced = s.announced)
    (hnone : milestones r.2 = [])
  | announces (v : Version) (hwaited : s.handler.state = .awaitingVerack) (hadmitted : s.IsAdmitted)
    (hphase : r.1.phase ≠ .over) (hannounced : r.1.announced = true)
    (hstate : r.1.handler.state = .ready)
    (heffects : r.2 = [.report (.peerReady v), .notify .ready])
  | ends {before : List SessionEffect} (hphase : r.1.phase = .over)
    (hnone : milestones before = []) (heffects : r.2 = before ++ closing s.announced)

variable {s s' : Session} {input : SessionInput} {ledger : Ledger} {moment : Moment}
  {r : Session × List SessionEffect}

/-! ## Effects -/

lemma milestones_nil : milestones [] = [] := rfl

lemma milestones_append (effects effects' : List SessionEffect) :
    milestones (effects ++ effects') = milestones effects ++ milestones effects' :=
  List.filter_append ..

/-- What others hear of the end are milestones. -/
lemma milestones_closing (announced : Bool) :
    milestones (closing announced) = closing announced := by
  cases announced <;> rfl

/-- A report about work is no milestone. -/
lemma milestones_reports {reports : List TaskReport}
    (h : ∀ report ∈ reports, report.isOfPresence = false) :
    milestones (reports.map SessionEffect.report) = [] := by
  refine List.filter_eq_nil_iff.mpr fun effect heffect => ?_
  obtain ⟨report, hreport, rfl⟩ := List.mem_map.mp heffect
  exact Bool.eq_false_iff.mp (h report hreport)

/-- Whatever comes before it, the end of a session is the end. -/
lemma Stage.of_finish (hannounced : s'.announced = s.announced) {before : List SessionEffect}
    (hbefore : milestones before = []) : s.Stage (s'.finish.1, before ++ s'.finish.2) := by
  have hnone : milestones (before ++ [.close]) = [] := by
    rw [milestones_append, hbefore]
    rfl
  refine .ends rfl hnone ?_
  rw [List.append_assoc, ← hannounced]
  rfl

/-- A session that ends has others hear of it if they were told of its beginning. -/
lemma stage_finish (hannounced : s'.announced = s.announced) : s.Stage s'.finish :=
  .of_finish hannounced (milestones_nil)

/-- A message that is written is no milestone. -/
lemma stage_write {phase : SessionPhase} (hphase : phase ≠ .over) (handler : Handler)
    (agenda : List HandlerEvent) (m : Message) :
    s.Stage (⟨handler, phase, agenda, s.announced⟩, [.write m]) := .goesOn hphase rfl rfl

/-- Everyday traffic passes no milestone. -/
lemma carryOut_unmarked {events : List HandlerEvent} (hevents : AllOperational events)
    (s : Session) :
    (s.carryOut events).1.phase ≠ .over ∧ (s.carryOut events).1.announced = s.announced ∧
      milestones (s.carryOut events).2 = [] := by
  induction events with
  | nil => exact ⟨SessionPhase.noConfusion, rfl, rfl⟩
  | cons event rest ih =>
    obtain ⟨hevent, hrest⟩ := List.forall_mem_cons.mp hevents
    cases event with
    | send | addressRequest => exact ⟨SessionPhase.noConfusion, rfl, rfl⟩
    | filterChanged | peers | relay | remoteHeight => exact ih hrest
    | versionReceived | ready | stop => exact Bool.noConfusion hevent

/-- So neither does a turn that is spent on it. -/
lemma stage_carryOut {events : List HandlerEvent} (hevents : AllOperational events)
    (hannounced : s'.announced = s.announced) {before : List SessionEffect}
    (hbefore : milestones before = []) :
    s.Stage ((s'.carryOut events).1, before ++ (s'.carryOut events).2) := by
  obtain ⟨hphase, hsame, hnone⟩ := carryOut_unmarked hevents s'
  refine .goesOn hphase (hsame.trans hannounced) ?_
  rw [milestones_append, hbefore, hnone]
  rfl

/-- A farewell of the peer is the end. -/
lemma stage_farewell {events : List HandlerEvent} (hevents : Handler.Farewell events)
    (hannounced : s'.announced = s.announced) : s.Stage (s'.carryOut events) := by
  cases hevents with
  | plain => exact stage_finish hannounced
  | suggesting records =>
    have hnone : milestones [.notify (.suggested records)] = [] := rfl
    exact .of_finish hannounced hnone

/-! ## What happens to a session -/

/-- A session that is left alone stays where it is. -/
lemma stage_unchanged (hlive : s.phase ≠ .over) : s.Stage (s, []) :=
  .goesOn hlive rfl milestones_nil

/-- A session goes on with its agenda. -/
lemma Coherent.stage_resume (h : s.Coherent)
    (hphase : s.phase = .writing ∨ s.phase = .awaitingAddresses) : s.Stage s.resume := by
  have hagenda : AllOperational s.agenda := by
    cases h with
    | acknowledging _ _ hagenda =>
      rw [hagenda]
      exact List.forall_mem_nil _
    | writing _ _ hagenda => exact hagenda
    | asking _ _ hagenda => exact hagenda
    | opening hother | idle hother | judging hother | parting hother | gone hother =>
      simp [hother] at hphase
  exact stage_carryOut hagenda rfl milestones_nil

/-- Saying farewell is no milestone yet. -/
lemma stage_part (reason : DisconnectReason) : s.Stage (s.part reason) :=
  stage_write SessionPhase.noConfusion _ _ _

/-- A command takes a session to no milestone. -/
lemma stage_onCommand (hlive : s.phase ≠ .over) (c : SessionCommand) : s.Stage (s.onCommand c) := by
  cases c with
  | send m =>
    rw [onCommand]
    split
    · exact stage_write SessionPhase.noConfusion _ _ _
    · exact stage_unchanged hlive
  | relay kind hash =>
    rw [onCommand]
    split
    · exact stage_write SessionPhase.noConfusion _ _ _
    · exact .goesOn hlive rfl rfl
  | disconnect reason => exact stage_part reason

/-- An item of the mailbox makes the peer known as ready, or ends the session, or is dealt with. -/
lemma Coherent.stage_onItem (h : s.Coherent) (hidle : s.phase = .idle) (i : MailboxItem) :
    s.Stage (s.onItem ledger moment i) := by
  cases i with
  | timer => exact .goesOn SessionPhase.noConfusion rfl rfl
  | message m =>
    have hhandles := Handler.handles_handleMessage s.handler ledger moment m
    unfold onItem
    rw [Handler.handle]
    generalize s.handler.handleMessage ledger moment m = handled at hhandles
    cases hhandles with
    | ignored _ hstopped => exact absurd hstopped (h.of_idle hidle).1
    | parted d => exact stage_farewell (Handler.farewell_onDisconnect s.handler d) rfl
    | introduced v hnew => exact .goesOn SessionPhase.noConfusion rfl rfl
    | acknowledged hwaited =>
      have hasked : s.phase ≠ .awaitingVerdict := by
        rw [hidle]
        exact SessionPhase.noConfusion
      cases hknown : s.handler.version with
      | none => exact .goesOn SessionPhase.noConfusion rfl rfl
      | some v =>
        exact .announces v hwaited (.inl ⟨hwaited, hasked⟩) SessionPhase.noConfusion rfl rfl rfl
    | dispatched _ hready hcommand =>
      obtain ⟨-, -, hevents⟩ := Handler.dispatch_spec s.handler ledger moment m
      have hannounced : ({ s with handler := (s.handler.dispatch ledger moment m).handler } :
          Session).announced = s.announced := rfl
      exact stage_carryOut hevents hannounced
        (milestones_reports (s.handler.isOfPresence_of_mem_dispatch ledger moment m))
    | violated => exact stage_finish rfl

/-- Whatever happens to a session that is not over. -/
lemma step_stage (h : s.Coherent) (hlive : s.phase ≠ .over) (ledger : Ledger) (moment : Moment)
    (input : SessionInput) : s.Stage (s.step ledger moment input) := by
  have hreacts := s.step_reacts ledger moment input
  generalize s.step ledger moment input = r at hreacts
  cases hreacts with
  | opened => exact .goesOn SessionPhase.noConfusion rfl rfl
  | resumed hphase => exact h.stage_resume (.inl hphase)
  | failed | parted | ended => exact stage_finish rfl
  | judged _ v =>
    cases v with
    | ok => exact stage_write SessionPhase.noConfusion _ _ _
    | error reason => exact stage_part reason
  | informed hphase records =>
    cases records with
    | nil => exact h.stage_resume (.inr hphase)
    | cons => exact stage_write SessionPhase.noConfusion _ _ _
  | commanded _ c => exact stage_onCommand hlive c
  | handled hphase i => exact h.stage_onItem hphase i
  | late => exact stage_part _
  | unused => exact stage_unchanged hlive

/-- A session that goes on does not close its stream. -/
lemma close_notMem_step (h : s.Coherent) (hdue : s.Due input)
    (hlive : (s.step ledger moment input).1.phase ≠ .over) :
    .close ∉ (s.step ledger moment input).2 := by
  have hproceeds : s.Proceeds input (s.step ledger moment input) := step_proceeds h hdue
  have hmove := hproceeds.move
  intro hclose
  have hstream : .close ∈ (s.step ledger moment input).2.filter SessionEffect.isAtStream :=
    List.mem_filter.mpr ⟨hclose, rfl⟩
  generalize (s.step ledger moment input).2.filter SessionEffect.isAtStream = effects
    at hmove hstream
  cases hmove with
  | silent => exact absurd hstream List.not_mem_nil
  | ended hover => exact hlive hover
  | forwarded | working | admitted | parted =>
    exact SessionEffect.noConfusion (List.mem_singleton.mp hstream)

/-- A session tells the manager that it is over in the turn in which it is, and last. -/
lemma Stage.notices (h : s.Stage r) :
    (r.1.phase ≠ .over ∧ .notify .disconnected ∉ r.2) ∨
      r.1.phase = .over ∧ ∃ before, r.2 = before ++ [.notify .disconnected] ∧
        .notify .disconnected ∉ before := by
  have hnever : ∀ {effects}, milestones effects = [] → .notify .disconnected ∉ effects :=
    fun hnone hmem => List.filter_eq_nil_iff.mp hnone _ hmem rfl
  cases h with
  | goesOn hphase _ hnone => exact .inl ⟨hphase, hnever hnone⟩
  | announces v _ _ hphase _ _ heffects =>
    refine .inl ⟨hphase, ?_⟩
    rw [heffects]
    simp
  | ends hphase hnone heffects =>
    refine .inr ⟨hphase, _, heffects.trans (List.append_assoc ..).symm, fun hmem => ?_⟩
    rcases List.mem_append.mp hmem with hmem | hmem
    · exact hnever hnone hmem
    · split at hmem
      · exact SessionEffect.noConfusion (List.mem_singleton.mp hmem)
      · exact List.not_mem_nil hmem

/-! ## The milestones so far -/

/-- How the milestones that a session has passed go with what it has become. -/
inductive Milestones (s : Session) (passed : List SessionEffect) : Prop
  | unknown (hphase : s.phase ≠ .over) (hannounced : s.announced = false) (hpassed : passed = [])
  | known (v : Version) (hphase : s.phase ≠ .over) (hannounced : s.announced = true)
    (hstate : HandshakeState.ready.rank ≤ s.handler.state.rank)
    (hpassed : passed = [.report (.peerReady v)])
  | lost (hphase : s.phase = .over) (hpassed : passed = [.notify .disconnected])
  | left (v : Version) (hphase : s.phase = .over)
    (hpassed : passed =
      [.report (.peerReady v), .report .peerDisconnected, .notify .disconnected])

/-- A session that is not over has at most reported that its peer is ready; one that is over has
closed with what belongs to that. -/
lemma Milestones.spec {passed : List SessionEffect} (h : s.Milestones passed) :
    (s.phase ≠ .over → passed = [] ∨ ∃ v, passed = [.report (.peerReady v)]) ∧
      (s.phase = .over → passed = [.notify .disconnected] ∨ ∃ v, passed =
        [.report (.peerReady v), .report .peerDisconnected, .notify .disconnected]) := by
  cases h with
  | unknown hphase _ hpassed => exact ⟨fun _ => .inl hpassed, fun hover => absurd hover hphase⟩
  | known v hphase _ _ hpassed =>
    exact ⟨fun _ => .inr ⟨v, hpassed⟩, fun hover => absurd hover hphase⟩
  | lost hover hpassed => exact ⟨fun hphase => absurd hover hphase, fun _ => .inl hpassed⟩
  | left v hover hpassed => exact ⟨fun hphase => absurd hover hphase, fun _ => .inr ⟨v, hpassed⟩⟩

/-- Only a session that is ready waits for addresses. -/
lemma Coherent.ready_of_awaitingAddresses (h : s.Coherent) (hphase : s.phase = .awaitingAddresses) :
    s.handler.state = .ready := by
  cases h with
  | asking _ hstate => exact hstate
  | opening hother | idle hother | judging hother | acknowledging hother | writing hother
  | parting hother | gone hother => exact SessionPhase.noConfusion (hother.symm.trans hphase)

/-- The state of a session only moves forward, whatever happens to it. -/
lemma Coherent.forward_step (h : s.Coherent) (ledger : Ledger) (moment : Moment)
    (input : SessionInput) :
    s.handler.state.rank ≤ (s.step ledger moment input).1.handler.state.rank := by
  by_cases hdue : s.Due input
  · exact (step_proceeds h hdue).follows.forward
  · rw [step_of_not_due hdue]

/-- A session that passes the milestones of its end has passed no others before, or only that its
peer is ready. -/
lemma Milestones.close {passed : List SessionEffect} (h : s.Milestones passed)
    (hlive : s.phase ≠ .over) (hover : s'.phase = .over) :
    s'.Milestones (passed ++ closing s.announced) := by
  cases h with
  | unknown _ hannounced hpassed =>
    rw [hpassed, hannounced]
    exact .lost hover rfl
  | known v _ hannounced _ hpassed =>
    rw [hpassed, hannounced]
    exact .left v hover rfl
  | lost hphase | left _ hphase => exact absurd hphase hlive

/-- The milestones keep fitting, whatever happens to a session. -/
lemma Milestones.step {passed : List SessionEffect} (h : s.Milestones passed) (hs : s.Coherent)
    (ledger : Ledger) (moment : Moment) (input : SessionInput) :
    (s.step ledger moment input).1.Milestones
      (passed ++ milestones (s.step ledger moment input).2) := by
  by_cases hover : s.phase = .over
  · rw [step_of_over hover, milestones_nil, List.append_nil]
    exact h
  · have hforward := hs.forward_step ledger moment input
    have hstage := step_stage hs hover ledger moment input
    generalize s.step ledger moment input = r at hforward hstage ⊢
    cases hstage with
    | goesOn hphase hannounced hnone =>
      rw [hnone, List.append_nil]
      cases h with
      | unknown _ hunannounced hpassed =>
        exact .unknown hphase (hannounced.trans hunannounced) hpassed
      | known v _ hready hstate hpassed =>
        exact .known v hphase (hannounced.trans hready) (hstate.trans hforward) hpassed
      | lost hphase | left _ hphase => exact absurd hphase hover
    | announces v hwaited _ hphase hannounced hstate heffects =>
      rw [heffects]
      cases h with
      | unknown _ _ hpassed =>
        rw [hpassed]
        exact .known v hphase hannounced (by rw [hstate]) rfl
      | known _ _ _ hlate =>
        -- A peer that is known is not waited for.
        rw [hwaited] at hlate
        exact absurd hlate (by decide)
      | lost hphase | left _ hphase => exact absurd hphase hover
    | ends hphase hnone heffects =>
      rw [heffects, milestones_append, hnone, milestones_closing]
      exact h.close hover hphase

/-! ## A run -/

variable {settings : Settings} {unixTime : UInt32} {turns : List Turn}

/-- What a session does in its turns. -/
def effects (turns : List Turn) : List SessionEffect := turns.flatMap (·.result.2)

lemma effects_concat (turns : List Turn) (t : Turn) :
    effects (turns ++ [t]) = effects turns ++ t.result.2 := by
  rw [effects, List.flatMap_append, List.flatMap_singleton]
  rfl

/-- The milestones of all turns fit the session. -/
lemma History.milestones (h : History settings ledger unixTime turns s) :
    s.Milestones (milestones (effects turns)) := by
  induction h with
  | start => exact .unknown SessionPhase.noConfusion rfl rfl
  | @turn turns t h hdue ih =>
    rw [effects_concat, milestones_append]
    exact ih.step h.coherent t.ledger t.moment t.input

/-- The last thing that a session does is to tell the manager that it is over. -/
lemma History.getLast?_effects (h : History settings ledger unixTime turns s)
    (hover : s.phase = .over) : (effects turns).getLast? = some (.notify .disconnected) := by
  cases h with
  | start => exact SessionPhase.noConfusion hover
  | @turn turns t h hdue =>
    cases step_stage h.coherent hdue.ne_over t.ledger t.moment t.input with
    | goesOn hphase => exact absurd hover hphase
    | announces _ _ _ hphase => exact absurd hover hphase
    | ends _ _ heffects =>
      have hresult : t.result.2 = _ := heffects
      rw [effects_concat, hresult, closing, ← List.append_assoc, ← List.append_assoc,
        List.getLast?_concat]

/-- A peer that may stay was let in by a verdict. -/
lemma History.verdict_of_isAdmitted (h : History settings ledger unixTime turns s)
    (hadmitted : s.IsAdmitted) :
    ∃ t ∈ turns, t.before.phase = .awaitingVerdict ∧ t.input = .answer (.verdict (.ok ())) := by
  induction h with
  | start =>
    rcases hadmitted with ⟨hstate, -⟩ | hstate <;> exact HandshakeState.noConfusion hstate
  | @turn turns t h hdue ih =>
    have hearlier : t.before.IsAdmitted → ∃ t' ∈ turns ++ [t],
        t'.before.phase = .awaitingVerdict ∧ t'.input = .answer (.verdict (.ok ())) := by
      intro hbefore
      obtain ⟨t', ht', hverdict⟩ := ih hbefore
      exact ⟨t', List.mem_append_left _ ht', hverdict⟩
    cases step_passage h.coherent t.ledger t.moment t.input with
    | steady _ _ hsame => exact hearlier (hsame hadmitted)
    | introduced v _ _ hstate hphase =>
      rcases hadmitted with ⟨-, hdecided⟩ | hready
      · exact absurd hphase hdecided
      · exact HandshakeState.noConfusion (hstate.symm.trans hready)
    | admitted hinput _ hstate =>
      rw [hinput] at hdue
      refine ⟨t, List.mem_append_right _ List.mem_cons_self, hdue.resolve_right ?_, hinput⟩
      -- Who waits for addresses is ready, and does not go back.
      intro hasked
      have hforward := h.coherent.forward_step t.ledger t.moment t.input
      rw [hstate, h.coherent.ready_of_awaitingAddresses hasked] at hforward
      exact absurd hforward (by decide)
    | completed hbefore => exact hearlier hbefore

/-- A peer is reported as ready only after the manager let it stay. -/
lemma History.verdict_of_peerReady {earlier later : List Turn} {t : Turn} {v : Version}
    (h : History settings ledger unixTime (earlier ++ t :: later) s)
    (hready : .report (.peerReady v) ∈ t.result.2) :
    ∃ t' ∈ earlier, t'.before.phase = .awaitingVerdict ∧
      t'.input = .answer (.verdict (.ok ())) := by
  obtain ⟨hearlier, hdue⟩ := h.of_mid
  have hmilestone : .report (.peerReady v) ∈ Session.milestones t.result.2 :=
    List.mem_filter.mpr ⟨hready, rfl⟩
  cases step_stage hearlier.coherent hdue.ne_over t.ledger t.moment t.input with
  | goesOn _ _ hnone =>
    rw [Turn.result, hnone] at hmilestone
    exact absurd hmilestone List.not_mem_nil
  | announces _ _ hadmitted => exact hearlier.verdict_of_isAdmitted hadmitted
  | ends _ hnone heffects =>
    rw [Turn.result, heffects, milestones_append, hnone, milestones_closing] at hmilestone
    cases hannounced : t.before.announced <;> simp [closing, hannounced] at hmilestone

end Session

end PeerNet
