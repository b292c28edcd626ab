import PeerNet.Proofs.Handler.Grammar
import PeerNet.Session.Step

/-!
# What a session does in one turn

A session is told things only when they are due: that a write is over while it writes, an answer
while it awaits one, and everything else while it is idle (`Session.Due`).  Its phase, the state of
its handler and its agenda then always fit together (`Session.Coherent`), and in one turn it does at
most one thing at its stream (`Session.Move`): it writes a message, for one of a few reasons, or it
closes the stream.

The state of the handler only moves forward, and the manager is asked for a verdict at most once,
since that takes a handler that has not met its peer (`Session.Follows`).
-/

namespace PeerNet

namespace HandlerEvent

/-- The events of everyday traffic. -/
def AllOperational (events : List HandlerEvent) : Prop := ∀ e ∈ events, e.isOperational = true

end HandlerEvent

/-- Whether an effect concerns the stream. -/
def SessionEffect.isAtStream : SessionEffect → Bool
  | .write _ | .close => true
  | .notify _ | .report _ => false

namespace Session

open HandlerEvent (AllOperational)

/-! ## Phases -/

/-- Whether a session writes. -/
def isWriting (s : Session) : Bool :=
  s.phase == .opening || s.phase == .writing || s.phase == .parting

/-- Whether a session neither writes nor is over. -/
def isWaiting (s : Session) : Bool :=
  s.phase == .idle || s.phase == .awaitingVerdict || s.phase == .awaitingAddresses

/-- What a session may be told in its phase. -/
def Due (s : Session) : SessionInput → Prop
  | .written _ => s.isWriting = true
  | .answer _ => s.phase = .awaitingVerdict ∨ s.phase = .awaitingAddresses
  | .command _ | .item _ | .handshakeTimeout | .readerFinished => s.phase = .idle

/-- How the phase of a session, the state of its handler and its agenda go together. -/
inductive Coherent (s : Session) : Prop
  | opening (hphase : s.phase = .opening) (hstate : s.handler.state = .awaitingVersion)
    (hagenda : s.agenda = [])
  | idle (hphase : s.phase = .idle) (hstate : s.handler.state ≠ .stopped) (hagenda : s.agenda = [])
  | judging (hphase : s.phase = .awaitingVerdict) (hstate : s.handler.state = .awaitingVerack)
    (hagenda : s.agenda = [])
  | acknowledging (hphase : s.phase = .writing) (hstate : s.handler.state = .awaitingVerack)
    (hagenda : s.agenda = [])
  | writing (hphase : s.phase = .writing) (hstate : s.handler.state = .ready)
    (hagenda : AllOperational s.agenda)
  | asking (hphase : s.phase = .awaitingAddresses) (hstate : s.handler.state = .ready)
    (hagenda : AllOperational s.agenda)
  | parting (hphase : s.phase = .parting) (hstate : s.handler.state = .stopped)
  | gone (hphase : s.phase = .over) (hstate : s.handler.state = .stopped)

/-- Whether the verdict on the peer is still to come. -/
def IsUndecided (s : Session) : Prop :=
  s.phase = .awaitingVerdict ∨ s.handler.state = .awaitingVersion

/-- What one session can become in the course of its turns. -/
structure Follows (s s' : Session) : Prop where
  forward : s.handler.state.rank ≤ s'.handler.state.rank
  undecided : s'.IsUndecided → s.IsUndecided

lemma Follows.refl (s : Session) : s.Follows s := ⟨le_rfl, id⟩

/-- What follows a later session follows the earlier one. -/
lemma Follows.trans {s s' s'' : Session} (h : s.Follows s') (h' : s'.Follows s'') :
    s.Follows s'' :=
  ⟨h.forward.trans h'.forward, fun hundecided => h.undecided (h'.undecided hundecided)⟩

/-- An idle session has not stopped and has nothing on its agenda. -/
lemma Coherent.of_idle {s : Session} (h : s.Coherent) (hphase : s.phase = .idle) :
    s.handler.state ≠ .stopped ∧ s.agenda = [] := by
  cases h with
  | idle _ hstate hagenda => exact ⟨hstate, hagenda⟩
  | opening hother | judging hother | acknowledging hother | writing hother | asking hother
  | parting hother | gone hother =>
    rw [hphase] at hother
    exact SessionPhase.noConfusion hother

/-- Whoever says farewell, or is over, has stopped. -/
lemma Coherent.stopped {s : Session} (h : s.Coherent)
    (hphase : s.phase = .parting ∨ s.phase = .over) : s.handler.state = .stopped := by
  cases h with
  | parting _ hstate => exact hstate
  | gone _ hstate => exact hstate
  | opening hother | idle hother | judging hother | acknowledging hother | writing hother
  | asking hother => simp [hother] at hphase

/-- Nothing is due to a session that is over. -/
lemma Due.ne_over {s : Session} {input : SessionInput} (hdue : s.Due input) : s.phase ≠ .over := by
  intro hover
  cases input with
  | written _ =>
    rw [Due, isWriting, hover] at hdue
    exact Bool.noConfusion hdue
  | answer _ =>
    rcases hdue with hasked | hasked <;> exact SessionPhase.noConfusion (hover.symm.trans hasked)
  | command _ | item _ | handshakeTimeout | readerFinished =>
    exact SessionPhase.noConfusion (hover.symm.trans hdue)

/-! ## One turn -/

/-- Why a session says farewell. -/
inductive Parting (s : Session) (input : SessionInput) : DisconnectReason → Prop
  | commanded {reason : DisconnectReason} (hinput : input = .command (.disconnect reason)) :
    Parting s input reason
  | refused {reason : DisconnectReason} (hinput : input = .answer (.verdict (.error reason)))
    (hstate : s.handler.state = .awaitingVerack) : Parting s input reason
  | late (hinput : input = .handshakeTimeout) (hready : s.handler.state ≠ .ready)
    (hstopped : s.handler.state ≠ .stopped) : Parting s input .connectionTimeout

/-- What a session does at its stream in one turn, and why. -/
inductive Move (s : Session) (input : SessionInput) (s' : Session) : List SessionEffect → Prop
  | silent (hwaiting : s'.isWaiting = true) : Move s input s' []
  | forwarded {m : Message} (hinput : input = .command (.send m))
    (hready : s.handler.state = .ready) (hphase : s'.phase = .writing) :
    Move s input s' [.write m]
  | working {m : Message} (hcommand : m.command.isOperational = true)
    (hready : s.handler.state = .ready) (hphase : s'.phase = .writing) :
    Move s input s' [.write m]
  | admitted (hinput : input = .answer (.verdict (.ok ()))) (hasked : s.phase = .awaitingVerdict)
    (hstate : s.handler.state = .awaitingVerack) (hstate' : s'.handler.state = .awaitingVerack)
    (hphase : s'.phase = .writing) : Move s input s' [.write .verack]
  | parted {reason : DisconnectReason} (hcause : s.Parting input reason)
    (hphase : s'.phase = .parting) : Move s input s' [.write (.disconnect (.plain reason))]
  | ended (hphase : s'.phase = .over) : Move s input s' [.close]

/-- What holds of a turn. -/
structure Proceeds (s : Session) (input : SessionInput) (r : Session × List SessionEffect) :
    Prop where
  coherent : r.1.Coherent
  move : s.Move input r.1 (r.2.filter SessionEffect.isAtStream)
  follows : s.Follows r.1

variable {s : Session} {input : SessionInput} {ledger : Ledger} {moment : Moment}

/-- A session that has stopped has nothing open. -/
lemma not_isUndecided_of_stopped {s : Session} (hphase : s.phase ≠ .awaitingVerdict)
    (hstate : s.handler.state = .stopped) : ¬ s.IsUndecided := by
  rintro (hasked | hnew)
  · exact hphase hasked
  · rw [hstate] at hnew
    exact HandshakeState.noConfusion hnew

/-- A session may end in every turn. -/
lemma finish_proceeds (s₀ s : Session) (input : SessionInput) : s₀.Proceeds input s.finish := by
  refine ⟨.gone rfl rfl, ?_, Handler.rank_le_rank_stopped _, fun h => absurd h ?_⟩
  · have heffects : s.finish.2.filter SessionEffect.isAtStream = [.close] := by
      rw [finish]
      cases s.announced <;> rfl
    rw [heffects]
    exact .ended rfl
  · exact not_isUndecided_of_stopped (by simp [finish]) rfl

/-- A session that has cause to leave may say farewell. -/
lemma part_proceeds {reason : DisconnectReason} (hcause : s.Parting input reason) :
    s.Proceeds input (s.part reason) := by
  refine ⟨.parting rfl rfl, .parted hcause rfl, Handler.rank_le_rank_stopped _,
    fun h => absurd h ?_⟩
  exact not_isUndecided_of_stopped (by simp [part]) rfl

/-- Effects that do not concern the stream do not matter. -/
lemma Proceeds.after {r : Session × List SessionEffect} (h : s.Proceeds input r)
    {effects : List SessionEffect} (heffects : ∀ effect ∈ effects, effect.isAtStream = false) :
    s.Proceeds input (r.1, effects ++ r.2) := by
  have hsame : (effects ++ r.2).filter SessionEffect.isAtStream =
      r.2.filter SessionEffect.isAtStream := by
    rw [List.filter_append, List.filter_eq_nil_iff.mpr, List.nil_append]
    exact fun effect heffect => Bool.eq_false_iff.mp (heffects effect heffect)
  exact ⟨h.coherent, hsame ▸ h.move, h.follows⟩

/-- A turn that begins with an effect aside from the stream goes on as it did. -/
lemma Proceeds.first {r : Session × List SessionEffect} (h : s.Proceeds input r)
    {effect : SessionEffect} (heffect : effect.isAtStream = false) :
    s.Proceeds input (first effect r) :=
  h.after (List.forall_mem_singleton.mpr heffect)

/-! ## The agenda -/

/-- With nothing left to do a session becomes idle. -/
lemma idle_proceeds {s₀ : Session} (hstate : s.handler.state ≠ .stopped)
    (hforward : s₀.handler.state.rank ≤ s.handler.state.rank)
    (hundecided : s.handler.state = .awaitingVersion → s₀.IsUndecided) :
    s₀.Proceeds input (s.carryOut []) := by
  refine ⟨.idle rfl hstate rfl, .silent rfl, hforward, ?_⟩
  rintro (hasked | hnew)
  · exact SessionPhase.noConfusion hasked
  · exact hundecided hnew

/-- A session that is ready has its verdict behind it. -/
lemma follows_of_ready {s s' : Session} (hready : s.handler.state = .ready)
    (hready' : s'.handler.state = .ready) (hphase : s'.phase ≠ .awaitingVerdict) :
    s.Follows s' := by
  refine ⟨by rw [hready, hready'], ?_⟩
  rintro (hasked | hnew)
  · exact absurd hasked hphase
  · rw [hready'] at hnew
    exact HandshakeState.noConfusion hnew

/-- Everyday traffic is carried out up to the first message or question. -/
lemma carryOut_proceeds {s₀ : Session} (hready₀ : s₀.handler.state = .ready)
    (hready : s.handler.state = .ready) {events : List HandlerEvent}
    (hevents : AllOperational events) : s₀.Proceeds input (s.carryOut events) := by
  induction events with
  | nil =>
    refine idle_proceeds (by rw [hready]; decide) (by rw [hready₀, hready]) fun hnew => ?_
    rw [hready] at hnew
    exact HandshakeState.noConfusion hnew
  | cons event rest ih =>
    obtain ⟨hevent, hrest⟩ := List.forall_mem_cons.mp hevents
    cases event with
    | send m =>
      exact ⟨.writing rfl hready hrest, .working hevent hready₀ rfl,
        follows_of_ready hready₀ hready (by simp [carryOut])⟩
    | addressRequest =>
      exact ⟨.asking rfl hready hrest, .silent rfl,
        follows_of_ready hready₀ hready (by simp [carryOut])⟩
    | filterChanged f => exact (ih hrest).first rfl
    | peers records => exact (ih hrest).first rfl
    | relay inventory => exact (ih hrest).first rfl
    | remoteHeight height => exact (ih hrest).first rfl
    | versionReceived v => exact Bool.noConfusion hevent
    | ready v => exact Bool.noConfusion hevent
    | stop => exact Bool.noConfusion hevent

/-- The completed handshake is made known, if the peer's version is there to go with it. -/
lemma carryOut_ready {s₀ : Session} (hready : s.handler.state = .ready)
    (hforward : s₀.handler.state.rank ≤ HandshakeState.ready.rank) (version : Option Version) :
    s₀.Proceeds input (s.carryOut (version.map HandlerEvent.ready).toList) := by
  have hidle : ∀ s' : Session, s'.handler.state = .ready → s₀.Proceeds input (s'.carryOut []) := by
    intro s' hready'
    refine idle_proceeds (by rw [hready']; decide) (by rwa [hready']) fun hnew => ?_
    rw [hready'] at hnew
    exact HandshakeState.noConfusion hnew
  cases version with
  | none => exact hidle s hready
  | some v =>
    have hnotified : s₀.Proceeds input
        (first (.notify .ready) (({ s with announced := true } : Session).carryOut [])) :=
      (hidle { s with announced := true } hready).first rfl
    exact hnotified.first rfl

/-- A farewell of the peer ends the session. -/
lemma fst_carryOut_farewell {events : List HandlerEvent} (hevents : Handler.Farewell events) :
    (s.carryOut events).1 = s.finish.1 := by
  cases hevents <;> rfl

/-- A session carries out a farewell to its end. -/
lemma carryOut_farewell_proceeds {s₀ : Session} {events : List HandlerEvent}
    (hevents : Handler.Farewell events) : s₀.Proceeds input (s.carryOut events) := by
  cases hevents with
  | plain => exact finish_proceeds s₀ s input
  | suggesting records => exact (finish_proceeds s₀ s input).first rfl

/-! ## What is due -/

/-- A write that fails ends the session. -/
lemma step_written_false (hwriting : s.isWriting = true) :
    s.step ledger moment (.written false) = s.finish := by
  have hphase : s.phase = .opening ∨ s.phase = .writing ∨ s.phase = .parting := by
    simpa [isWriting, or_assoc] using hwriting
  unfold step
  rcases hphase with hphase | hphase | hphase <;> rw [hphase]

/-- A write that has succeeded takes the session on with its agenda. -/
lemma step_written_true_proceeds (h : s.Coherent) (hwriting : s.isWriting = true) :
    s.Proceeds (.written true) (s.step ledger moment (.written true)) := by
  cases h with
  | opening hphase hstate hagenda =>
    have hstep : s.step ledger moment (.written true) = ({ s with phase := .idle }, []) := by
      unfold step
      rw [hphase]
    rw [hstep]
    exact ⟨.idle rfl (by simp [hstate]) hagenda, .silent rfl, le_rfl, fun _ => .inr hstate⟩
  | acknowledging hphase hstate hagenda =>
    have hstep : s.step ledger moment (.written true) = s.carryOut [] := by
      unfold step
      rw [hphase, ← hagenda]
      rfl
    rw [hstep]
    exact idle_proceeds (by rw [hstate]; decide) le_rfl fun hnew => .inr hnew
  | writing hphase hstate hagenda =>
    have hstep : s.step ledger moment (.written true) = s.carryOut s.agenda := by
      unfold step
      rw [hphase]
      rfl
    rw [hstep]
    exact carryOut_proceeds hstate hstate hagenda
  | parting hphase =>
    have hstep : s.step ledger moment (.written true) = s.finish := by
      unfold step
      rw [hphase]
    rw [hstep]
    exact finish_proceeds s s _
  | idle hphase | judging hphase | asking hphase | gone hphase =>
    simp [isWriting, hphase] at hwriting

/-- A turn without effect leaves everything as it is. -/
lemma Proceeds.unchanged (h : s.Coherent) (hwaiting : s.isWaiting = true) :
    s.Proceeds input (s, []) := ⟨h, .silent hwaiting, .refl s⟩

/-- What a session makes of an answer of the manager. -/
lemma step_answer_proceeds (h : s.Coherent)
    (hasked : s.phase = .awaitingVerdict ∨ s.phase = .awaitingAddresses) (a : ManagerAnswer) :
    s.Proceeds (.answer a) (s.step ledger moment (.answer a)) := by
  have hwaiting : s.isWaiting = true := by rcases hasked with h | h <;> simp [isWaiting, h]
  cases h with
  | judging hphase hstate hagenda =>
    cases a with
    | verdict v =>
      have hstep : s.step ledger moment (.answer (.verdict v)) = s.onAnswer (.verdict v) := by
        unfold step
        rw [hphase]
      rw [hstep]
      cases v with
      | ok =>
        exact ⟨.acknowledging rfl hstate hagenda, .admitted rfl hphase hstate hstate rfl, le_rfl,
          fun _ => .inl hphase⟩
      | error reason => exact part_proceeds (.refused rfl hstate)
    | addresses records =>
      have hstep : s.step ledger moment (.answer (.addresses records)) = (s, []) := by
        unfold step
        rw [hphase]
      rw [hstep]
      exact .unchanged (.judging hphase hstate hagenda) hwaiting
  | asking hphase hstate hagenda =>
    cases a with
    | verdict v =>
      have hstep : s.step ledger moment (.answer (.verdict v)) = (s, []) := by
        unfold step
        rw [hphase]
      rw [hstep]
      exact .unchanged (.asking hphase hstate hagenda) hwaiting
    | addresses records =>
      have hstep : s.step ledger moment (.answer (.addresses records)) =
          s.onAnswer (.addresses records) := by
        unfold step
        rw [hphase]
      rw [hstep]
      cases records with
      | nil => exact carryOut_proceeds hstate hstate hagenda
      | cons r rest =>
        exact ⟨.writing rfl hstate hagenda, .working rfl hstate rfl,
          follows_of_ready hstate hstate (by simp [onAnswer, send])⟩
  | opening hphase | idle hphase | acknowledging hphase | writing hphase | parting hphase
  | gone hphase =>
    simp [hphase] at hasked

/-- The announcement of an object is everyday traffic. -/
lemma isOperational_of_relay {h h' : Handler} {kind : InventoryKind} {hash : Hash} {m : Message}
    (hrelay : h.relay kind hash = (h', some m)) : m.command.isOperational = true := by
  rw [Handler.relay] at hrelay
  split at hrelay
  · split at hrelay
    · cases hrelay
      rfl
    · cases hrelay
  · cases hrelay

/-- A command to an idle session has something written, a farewell said, or nothing done. -/
lemma onCommand_proceeds (hphase : s.phase = .idle) (hstate : s.handler.state ≠ .stopped)
    (hagenda : s.agenda = []) (c : SessionCommand) : s.Proceeds (.command c) (s.onCommand c) := by
  have hidle : s.Coherent := .idle hphase hstate hagenda
  have hwaiting : s.isWaiting = true := by simp [isWaiting, hphase]
  have hnone : AllOperational s.agenda := hagenda ▸ List.forall_mem_nil _
  cases c with
  | send m =>
    rw [onCommand]
    split
    · next hready =>
      have hready : s.handler.state = .ready := eq_of_beq hready
      exact ⟨.writing rfl hready hnone, .forwarded rfl hready rfl,
        follows_of_ready hready hready (by simp [send])⟩
    · exact .unchanged hidle hwaiting
  | relay kind hash =>
    obtain ⟨⟨known, hknown⟩, hnever⟩ := Handler.relay_spec s.handler kind hash
    rw [onCommand]
    rcases hrelay : s.handler.relay kind hash with ⟨handler, _ | m⟩
    · rw [hrelay] at hknown
      subst hknown
      exact ⟨.idle hphase hstate hagenda, .silent hwaiting, le_rfl, id⟩
    · have hready : s.handler.state = .ready := by
        by_contra hstate
        have hnone := hnever hstate
        rw [hrelay] at hnone
        exact Option.noConfusion rfl (heq_of_eq hnone)
      rw [hrelay] at hknown
      subst hknown
      exact ⟨.writing rfl hready hnone, .working (isOperational_of_relay hrelay) hready rfl,
        follows_of_ready hready hready (by simp [send])⟩
  | disconnect reason => exact part_proceeds (.commanded rfl)

/-- What an idle session makes of a message, case by case. -/
lemma onItem_proceeds (hstate : s.handler.state ≠ .stopped) (i : MailboxItem) :
    s.Proceeds (.item i) (s.onItem ledger moment i) := by
  cases i with
  | timer =>
    exact idle_proceeds (s := { s with handler := s.handler.onTimer moment.now }) hstate le_rfl
      fun hnew => .inr hnew
  | message m =>
    have hhandles := Handler.handles_handleMessage s.handler ledger moment m
    rw [onItem, Handler.handle]
    generalize s.handler.handleMessage ledger moment m = handled at hhandles
    have hreports : ∀ reports : List TaskReport,
        ∀ effect ∈ reports.map SessionEffect.report, effect.isAtStream = false := by
      intro reports effect heffect
      obtain ⟨report, -, rfl⟩ := List.mem_map.mp heffect
      rfl
    cases hhandles with
    | ignored _ hstopped => exact absurd hstopped hstate
    | parted d =>
      exact (carryOut_farewell_proceeds (Handler.farewell_onDisconnect s.handler d)).after
        (hreports _)
    | introduced v hnew =>
      refine ⟨.judging rfl rfl rfl, .silent rfl, ?_, fun _ => .inr hnew⟩
      rw [hnew]
      exact Nat.zero_le _
    | acknowledged hwaited =>
      have hrank : s.handler.state.rank ≤ HandshakeState.ready.rank := by
        rw [hwaited]
        decide
      exact carryOut_ready
        (s := { s with handler := { s.handler with state := .ready } }) rfl hrank _
    | dispatched _ hready hcommand =>
      obtain ⟨hstate', -, hevents⟩ := Handler.dispatch_spec s.handler ledger moment m
      exact (carryOut_proceeds hready (hstate'.trans hready) hevents).after (hreports _)
    | violated => exact finish_proceeds s _ _

/-- An idle session takes up an item. -/
lemma step_item (hphase : s.phase = .idle) (i : MailboxItem) :
    s.step ledger moment (.item i) = s.onItem ledger moment i := by
  unfold step
  rw [hphase]

/-- An idle session ends with its reader. -/
lemma step_readerFinished (hphase : s.phase = .idle) :
    s.step ledger moment .readerFinished = s.finish := by
  unfold step
  rw [hphase]

/-- What a session makes of whatever is due. -/
lemma step_proceeds (h : s.Coherent) (hdue : s.Due input) :
    s.Proceeds input (s.step ledger moment input) := by
  cases input with
  | written complete =>
    cases complete with
    | true => exact step_written_true_proceeds h hdue
    | false =>
      rw [step_written_false hdue]
      exact finish_proceeds s s _
  | answer a => exact step_answer_proceeds h hdue a
  | command c =>
    obtain ⟨hstate, hagenda⟩ := h.of_idle hdue
    have hstep : s.step ledger moment (.command c) = s.onCommand c := by
      unfold step
      rw [hdue]
    rw [hstep]
    exact onCommand_proceeds hdue hstate hagenda c
  | item i =>
    rw [step_item hdue]
    exact onItem_proceeds (h.of_idle hdue).1 i
  | handshakeTimeout =>
    have hstep : s.step ledger moment .handshakeTimeout =
        if s.isReady then (s, []) else s.part .connectionTimeout := by
      unfold step
      rw [hdue]
    rw [hstep]
    split
    · exact .unchanged h (by simp [isWaiting, show s.phase = .idle from hdue])
    · next hready =>
      exact part_proceeds (.late rfl (fun hstate => hready (by simp [isReady, hstate]))
        (h.of_idle hdue).1)
  | readerFinished =>
    rw [step_readerFinished hdue]
    exact finish_proceeds s s _

/-! ## Phase and input -/

/-- What a session does with what happens to it, by the phase that it is in. -/
inductive Reacts (s : Session) (ledger : Ledger) (moment : Moment) :
    SessionInput → Session × List SessionEffect → Prop
  | opened (hphase : s.phase = .opening) :
    Reacts s ledger moment (.written true) ({ s with phase := .idle }, [])
  | resumed (hphase : s.phase = .writing) : Reacts s ledger moment (.written true) s.resume
  | failed (hphase : s.phase = .opening ∨ s.phase = .writing) :
    Reacts s ledger moment (.written false) s.finish
  | parted (hphase : s.phase = .parting) (complete : Bool) :
    Reacts s ledger moment (.written complete) s.finish
  | judged (hphase : s.phase = .awaitingVerdict) (v : Except DisconnectReason Unit) :
    Reacts s ledger moment (.answer (.verdict v)) (s.onAnswer (.verdict v))
  | informed (hphase : s.phase = .awaitingAddresses) (records : List AddressRecord) :
    Reacts s ledger moment (.answer (.addresses records)) (s.onAnswer (.addresses records))
  | commanded (hphase : s.phase = .idle) (c : SessionCommand) :
    Reacts s ledger moment (.command c) (s.onCommand c)
  | handled (hphase : s.phase = .idle) (i : MailboxItem) :
    Reacts s ledger moment (.item i) (s.onItem ledger moment i)
  | late (hphase : s.phase = .idle) (hready : s.isReady = false) :
    Reacts s ledger moment .handshakeTimeout (s.part .connectionTimeout)
  | ended (hphase : s.phase = .idle) : Reacts s ledger moment .readerFinished s.finish
  | unused (input : SessionInput) : Reacts s ledger moment input (s, [])

/-- A session that is told what is due in its phase takes it up, and leaves anything else. -/
lemma step_reacts (s : Session) (ledger : Ledger) (moment : Moment) (input : SessionInput) :
    s.Reacts ledger moment input (s.step ledger moment input) := by
  unfold step
  split
  · next hphase => exact .opened hphase
  · next hphase => exact .resumed hphase
  · next hphase => exact .failed (.inl hphase)
  · next hphase => exact .failed (.inr hphase)
  · next hphase => exact .parted hphase _
  · next hphase => exact .judged hphase _
  · next hphase => exact .informed hphase _
  · next hphase => exact .commanded hphase _
  · next hphase => exact .handled hphase _
  · next hphase =>
    split
    · exact .unused _
    · next hready => exact .late hphase (Bool.eq_false_iff.mpr hready)
  · next hphase => exact .ended hphase
  · exact .unused _

/-! ## What ends a session -/

/-- What a session cannot go on after. -/
inductive Ending (s : Session) : SessionInput → Prop
  /-- A message that its state does not allow. -/
  | violation {m : Message} (hgate : gate s.handler.state m.command = .violation) :
    Ending s (.item (.message m))
  /-- A farewell of the peer. -/
  | disconnect {d : Disconnect} : Ending s (.item (.message (.disconnect d)))
  | readerFinished : Ending s .readerFinished
  /-- A write that failed or took too long. -/
  | failed : Ending s (.written false)

/-- After such a thing the session is over, and it writes nothing in the turn. -/
lemma phase_step_of_ending (h : s.Coherent) (hdue : s.Due input) (hending : s.Ending input) :
    (s.step ledger moment input).1.phase = .over := by
  cases hending with
  | violation hgate =>
    rw [step_item hdue]
    dsimp only [onItem, Handler.handle]
    unfold Handler.handleMessage
    rw [hgate]
    rfl
  | @disconnect d =>
    have hgate := Handler.gate_eq_disconnect_iff.mpr
      ⟨(h.of_idle hdue).1, (rfl : (Message.disconnect d).command = .disconnect)⟩
    rw [step_item hdue]
    dsimp only [onItem, Handler.handle]
    unfold Handler.handleMessage
    rw [hgate]
    exact congrArg Session.phase
      (fst_carryOut_farewell (Handler.farewell_onDisconnect s.handler d))
  | readerFinished =>
    rw [step_readerFinished hdue]
    rfl
  | failed =>
    rw [step_written_false hdue]
    rfl

end Session

end PeerNet
