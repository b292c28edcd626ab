import PeerNet.Proofs.Session.Step

/-!
# What a session writes in the course of its turns

A session takes one turn after the other (`Session.History`).  Each of its messages has a reason
(`Session.Move`), and every reason names the state of the handler in which it can occur.  Since the
state only moves forward, a reason that belongs to an early state is gone for good later on: this is
how one turn rules out the writes of all turns that come after it.
-/

namespace PeerNet

/-- The message that an effect begins to write. -/
def SessionEffect.written? : SessionEffect → Option Message
  | .write m => some m
  | .close | .notify _ | .report _ => none

namespace Session

/-- One turn: what a session is told, and when. -/
structure Turn where
  before : Session
  ledger : Ledger
  moment : Moment
  input : SessionInput

namespace Turn

/-- What the session makes of it. -/
def result (t : Turn) : Session × List SessionEffect := t.before.step t.ledger t.moment t.input

def after (t : Turn) : Session := t.result.1

/-- The messages whose write begins. -/
def written (t : Turn) : List Message := t.result.2.filterMap SessionEffect.written?

/-- Whether the manager commanded the turn. -/
def isCommanded (t : Turn) : Bool :=
  match t.input with
  | .command _ => true
  | _ => false

/-- The messages that the session writes without a command to do so. -/
def own (t : Turn) : List Message := if t.isCommanded then [] else t.written

end Turn

/-- The turns of a session from its start on, and what has become of it. -/
inductive History (settings : Settings) (ledger : Ledger) (unixTime : UInt32) :
    List Turn → Session → Prop
  | start : History settings ledger unixTime [] (Session.start settings ledger unixTime).1
  | turn {turns : List Turn} {t : Turn} (h : History settings ledger unixTime turns t.before)
    (hdue : t.before.Due t.input) : History settings ledger unixTime (turns ++ [t]) t.after

variable {settings : Settings} {ledger : Ledger} {unixTime : UInt32} {turns : List Turn}
  {s s' : Session} {t : Turn}

/-! ## Turns in a row -/

/-- A session starts with its version to write, and nothing heard yet. -/
lemma coherent_start : (Session.start settings ledger unixTime).1.Coherent := .opening rfl rfl rfl

/-- Whatever is due keeps a session coherent. -/
lemma History.coherent (h : History settings ledger unixTime turns s) : s.Coherent := by
  induction h with
  | start => exact coherent_start
  | turn _ hdue ih => exact (step_proceeds ih hdue).coherent

/-- The last turn of a session comes after the others. -/
lemma History.of_append (h : History settings ledger unixTime (turns ++ [t]) s) :
    History settings ledger unixTime turns t.before ∧ t.before.Due t.input ∧ s = t.after := by
  generalize hturns : turns ++ [t] = turns' at h
  cases h with
  | start => exact absurd hturns (by simp)
  | turn h hdue =>
    obtain ⟨rfl, hlast⟩ := List.append_inj' hturns rfl
    cases hlast
    exact ⟨h, hdue, rfl⟩

/-- Every turn was taken by the session that its earlier turns led to. -/
lemma History.of_mid {earlier later : List Turn}
    (h : History settings ledger unixTime (earlier ++ t :: later) s) :
    History settings ledger unixTime earlier t.before ∧ t.before.Due t.input := by
  induction later using List.reverseRecOn generalizing s with
  | nil => exact ⟨h.of_append.1, h.of_append.2.1⟩
  | append_singleton later last ih =>
    rw [← List.cons_append, ← List.append_assoc] at h
    exact ih h.of_append.1

/-- A turn that ends the session is the last. -/
lemma History.getLast?_of_over (h : History settings ledger unixTime turns s) (ht : t ∈ turns)
    (hover : t.after.phase = .over) : turns.getLast? = some t := by
  obtain ⟨earlier, later, rfl⟩ := List.append_of_mem ht
  cases later with
  | nil => exact List.getLast?_concat
  | cons next later =>
    rw [List.append_cons] at h
    obtain ⟨hnext, hdue⟩ := h.of_mid
    obtain ⟨-, -, hbefore⟩ := hnext.of_append
    rw [← hbefore] at hover
    exact absurd hover hdue.ne_over

/-- The turns say what has become of the session. -/
lemma History.eq_last (h : History settings ledger unixTime turns s) :
    s = (turns.getLast?.map Turn.after).getD (Session.start settings ledger unixTime).1 := by
  cases h with
  | start => rfl
  | turn h hdue =>
    rw [List.getLast?_concat]
    rfl

/-- Whatever a session was told in its turns, it was due. -/
lemma History.proceeds (h : History settings ledger unixTime turns s) :
    ∀ t ∈ turns, t.before.Coherent ∧ t.before.Due t.input := by
  induction h with
  | start => exact List.forall_mem_nil _
  | turn h hdue ih =>
    intro t ht
    rcases List.mem_append.mp ht with ht | ht
    · exact ih t ht
    · rw [List.mem_singleton.mp ht]
      exact ⟨h.coherent, hdue⟩

/-- A later session follows an earlier one. -/
lemma History.follows (h : History settings ledger unixTime turns s) :
    (∀ t ∈ turns, t.after.Follows s) ∧ turns.Pairwise fun t t' => t.after.Follows t'.before := by
  induction h with
  | start => exact ⟨List.forall_mem_nil _, .nil⟩
  | @turn turns t h hdue ih =>
    obtain ⟨hfollows, hpairwise⟩ := ih
    have hturn : t.before.Follows t.after := (step_proceeds h.coherent hdue).follows
    refine ⟨fun t' ht' => ?_, List.pairwise_append.mpr
      ⟨hpairwise, List.pairwise_singleton _ _, fun t' ht' t'' ht'' => ?_⟩⟩
    · rcases List.mem_append.mp ht' with ht' | ht'
      · exact (hfollows t' ht').trans hturn
      · rw [List.mem_singleton.mp ht']
        exact .refl _
    · rw [List.mem_singleton.mp ht'']
      exact hfollows t' ht'

/-- Who has stopped stays so. -/
lemma Follows.stopped (h : s.Follows s') (hstopped : s.handler.state = .stopped) :
    s'.handler.state = .stopped := by
  have hforward := h.forward
  rw [hstopped] at hforward
  cases hstate : s'.handler.state <;> rw [hstate] at hforward <;>
    first | rfl | exact absurd hforward (by decide)

/-! ## The messages of one turn -/

/-- What is written in a turn is among its effects at the stream. -/
lemma Turn.written_eq (t : Turn) :
    t.written = (t.result.2.filter SessionEffect.isAtStream).filterMap SessionEffect.written? := by
  rw [Turn.written, List.filterMap_filter]
  refine List.filterMap_congr fun effect _ => ?_
  cases effect <;> rfl

/-- A message has one of four reasons, and is the only one of its turn. -/
inductive Reason (t : Turn) : Message → Prop
  | forwarded {m : Message} (hinput : t.input = .command (.send m))
    (hready : t.before.handler.state = .ready) : Reason t m
  | working {m : Message} (hcommand : m.command.isOperational = true)
    (hready : t.before.handler.state = .ready) : Reason t m
  | admitted (hinput : t.input = .answer (.verdict (.ok ())))
    (hasked : t.before.phase = .awaitingVerdict)
    (hstate : t.before.handler.state = .awaitingVerack) (hdecided : ¬ t.after.IsUndecided) :
    Reason t .verack
  | parted {reason : DisconnectReason} (hcause : t.before.Parting t.input reason)
    (hstopped : t.after.handler.state = .stopped) : Reason t (.disconnect (.plain reason))

/-- A session in the middle of its messages writes. -/
lemma isWriting_of_writing (hphase : s.phase = .writing) : s.isWriting = true := by
  rw [isWriting, hphase]
  rfl

/-- A session that says farewell writes. -/
lemma isWriting_of_parting (hphase : s.phase = .parting) : s.isWriting = true := by
  rw [isWriting, hphase]
  rfl

/-- A turn writes at most one message, for one of the four reasons, and then waits for it. -/
lemma Turn.written_spec (hcoherent : t.before.Coherent) (hdue : t.before.Due t.input) :
    t.written = [] ∨ ∃ m, t.written = [m] ∧ Reason t m ∧ t.after.isWriting = true := by
  have hproceeds : t.before.Proceeds t.input t.result := step_proceeds hcoherent hdue
  have hmove := hproceeds.move
  rw [t.written_eq]
  generalize t.result.2.filter SessionEffect.isAtStream = effects at hmove ⊢
  cases hmove with
  | silent => exact .inl rfl
  | ended => exact .inl rfl
  | forwarded hinput hready hphase =>
    exact .inr ⟨_, rfl, .forwarded hinput hready, isWriting_of_writing hphase⟩
  | working hcommand hready hphase =>
    exact .inr ⟨_, rfl, .working hcommand hready, isWriting_of_writing hphase⟩
  | parted hcause hphase =>
    exact .inr ⟨_, rfl, .parted hcause (hproceeds.coherent.stopped (.inl hphase)),
      isWriting_of_parting hphase⟩
  | admitted hinput hasked hstate hstate' hphase =>
    refine .inr ⟨_, rfl, .admitted hinput hasked hstate ?_, isWriting_of_writing hphase⟩
    rintro (hasked' | hnew)
    · exact SessionPhase.noConfusion (hphase.symm.trans hasked')
    · exact HandshakeState.noConfusion (hstate'.symm.trans hnew)

/-- Whatever is written in a turn has one of the four reasons. -/
lemma Turn.reason_of_mem (hcoherent : t.before.Coherent) (hdue : t.before.Due t.input)
    {m : Message} (hm : m ∈ t.written) : Reason t m := by
  rcases Turn.written_spec hcoherent hdue with hnone | ⟨m', hwritten, hreason, -⟩
  · rw [hnone] at hm
    exact absurd hm List.not_mem_nil
  · rw [hwritten] at hm
    rwa [List.mem_singleton.mp hm]

/-- Who has stopped writes nothing. -/
lemma Turn.written_of_stopped (hcoherent : t.before.Coherent) (hdue : t.before.Due t.input)
    (hstopped : t.before.handler.state = .stopped) : t.written = [] := by
  rcases Turn.written_spec hcoherent hdue with hnone | ⟨m, -, hreason, -⟩
  · exact hnone
  · exfalso
    cases hreason with
    | forwarded _ hready => exact HandshakeState.noConfusion (hstopped.symm.trans hready)
    | working _ hready => exact HandshakeState.noConfusion (hstopped.symm.trans hready)
    | admitted _ _ hstate => exact HandshakeState.noConfusion (hstopped.symm.trans hstate)
    | parted hcause =>
      cases hcause with
      | commanded hinput =>
        rw [hinput] at hdue
        exact (hcoherent.of_idle hdue).1 hstopped
      | refused _ hstate => exact HandshakeState.noConfusion (hstopped.symm.trans hstate)
      | late _ _ hlive => exact hlive hstopped

/-- What a session writes without a command it writes. -/
lemma Turn.mem_own {m : Message} :
    m ∈ t.own ↔ m ∈ t.written ∧ ∀ c, t.input ≠ .command c := by
  rw [Turn.own, Turn.isCommanded]
  cases t.input <;> simp

/-- A verack of its own is the session's answer to the verdict, which is no more to come then. -/
lemma Turn.own_verack (hcoherent : t.before.Coherent) (hdue : t.before.Due t.input)
    (hm : .verack ∈ t.own) :
    t.input = .answer (.verdict (.ok ())) ∧ t.before.IsUndecided ∧ ¬ t.after.IsUndecided := by
  obtain ⟨hwritten, huncommanded⟩ := Turn.mem_own.mp hm
  cases Turn.reason_of_mem hcoherent hdue hwritten with
  | forwarded hinput => exact absurd hinput (huncommanded _)
  | working hcommand => exact Bool.noConfusion hcommand
  | admitted hinput hasked _ hdecided => exact ⟨hinput, .inl hasked, hdecided⟩

/-- A farewell that is not forwarded has a cause, and stops the session. -/
lemma Turn.parting_of_mem (hcoherent : t.before.Coherent) (hdue : t.before.Due t.input)
    {d : Disconnect} (hm : .disconnect d ∈ t.written)
    (hforward : ∀ m, t.input ≠ .command (.send m)) :
    t.before.Parting t.input d.reason ∧ t.after.handler.state = .stopped := by
  cases Turn.reason_of_mem hcoherent hdue hm with
  | forwarded hinput => exact absurd hinput (hforward _)
  | working hcommand => exact Bool.noConfusion hcommand
  | parted hcause hstopped => exact ⟨hcause, hstopped⟩

/-! ## The messages of all turns -/

/-- What holds of the messages that a session writes after the local version. -/
structure Disciplined (turns : List Turn) : Prop where
  /-- Of its own accord the session acknowledges once. -/
  verack_once : (turns.flatMap Turn.own).count .verack ≤ 1
  /-- It does so when the manager lets the peer stay. -/
  verack_admitted : ∀ t ∈ turns, .verack ∈ t.own → t.input = .answer (.verdict (.ok ()))
  /-- Until the handshake is complete it writes its acknowledgement and a farewell, and nothing that
  it is given to write. -/
  reserved : ∀ t ∈ turns, t.before.isReady = false → ∀ m ∈ t.written,
    (m = .verack ∧ m ∈ t.own) ∨
      ((∃ d, m = .disconnect d) ∧ ∀ m', t.input ≠ .command (.send m'))
  /-- A farewell that it is not given to write is the last message. -/
  farewell_last : turns.Pairwise fun t t' => ∀ d, .disconnect d ∈ t.written →
    (∀ m, t.input ≠ .command (.send m)) → t'.written = []
  /-- It finds the handshake too slow only if that is never completed. -/
  timeout_unready : ∀ t ∈ turns, ∀ d, .disconnect d ∈ t.own → d.reason = .connectionTimeout →
    ∀ t' ∈ turns, t'.before.isReady = false ∧ t'.after.isReady = false
  /-- What it cannot go on after keeps it silent, then and later. -/
  ending_silent : ∀ t ∈ turns, t.before.Ending t.input → t.written = []
  ending_last : turns.Pairwise fun t t' => t.before.Ending t.input → t'.written = []

/-- A session counts as ready while its handler is. -/
lemma isReady_eq_false_iff : s.isReady = false ↔ s.handler.state ≠ .ready := by
  rw [isReady]
  exact beq_eq_false_iff_ne

/-- A session is ready from the moment it is until it stops. -/
lemma Follows.not_ready (h : s.Follows s') (hlate : s'.handler.state.rank < 2) :
    s.isReady = false := by
  rw [isReady_eq_false_iff]
  intro hready
  have hforward := h.forward
  rw [hready] at hforward
  exact absurd (hforward.trans_lt hlate) (by decide)

/-- A session whose handler has stopped is not ready. -/
lemma not_ready_of_stopped (h : s.handler.state = .stopped) : s.isReady = false := by
  rw [isReady_eq_false_iff, h]
  decide

/-- As long as the verdict is to come there is no verack of the session's own; there is one at most
afterwards. -/
lemma History.verack_once (h : History settings ledger unixTime turns s) :
    (turns.flatMap Turn.own).count .verack ≤ 1 ∧
      (s.IsUndecided → (turns.flatMap Turn.own).count .verack = 0) := by
  induction h with
  | start => exact ⟨Nat.zero_le _, fun _ => rfl⟩
  | @turn turns t h hdue ih =>
    obtain ⟨honce, hnone⟩ := ih
    have hcoherent := h.coherent
    rw [List.flatMap_append, List.flatMap_singleton, List.count_append]
    by_cases hm : .verack ∈ t.own
    · obtain ⟨-, hundecided, hdecided⟩ := Turn.own_verack hcoherent hdue hm
      have hcount : t.own.count .verack ≤ 1 := by
        refine List.count_le_length.trans ?_
        rw [Turn.own]
        split
        · exact Nat.zero_le _
        · rcases Turn.written_spec hcoherent hdue with hwritten | ⟨m, hwritten, -⟩ <;>
            simp [hwritten]
      rw [hnone hundecided, Nat.zero_add]
      exact ⟨hcount, fun hundecided' => absurd hundecided' hdecided⟩
    · rw [List.count_eq_zero_of_not_mem hm, Nat.add_zero]
      refine ⟨honce, fun hundecided => hnone ?_⟩
      exact (step_proceeds hcoherent hdue).follows.undecided hundecided

/-- Of two turns one is before the other. -/
lemma History.total (h : History settings ledger unixTime turns s) {t t' : Turn} (ht : t ∈ turns)
    (ht' : t' ∈ turns) :
    t' = t ∨ t.after.Follows t'.before ∨ t'.after.Follows t.before := by
  obtain ⟨earlier, later, rfl⟩ := List.append_of_mem ht
  obtain ⟨-, hlater, hacross⟩ := List.pairwise_append.mp h.follows.2
  rcases List.mem_append.mp ht' with hearlier | htail
  · exact .inr (.inr (hacross t' hearlier t List.mem_cons_self))
  · rcases List.mem_cons.mp htail with rfl | htail
    · exact .inl rfl
    · exact .inr (.inl (List.rel_of_pairwise_cons hlater htail))

/-- Nothing is written after a turn that stops the session. -/
lemma History.pairwise_silent (h : History settings ledger unixTime turns s) {p : Turn → Prop}
    (hp : ∀ t ∈ turns, p t → t.after.handler.state = .stopped) :
    turns.Pairwise fun t t' => p t → t'.written = [] := by
  refine h.follows.2.imp_of_mem fun ht ht' hfollows hpt => ?_
  obtain ⟨hcoherent, hdue⟩ := h.proceeds _ ht'
  exact Turn.written_of_stopped hcoherent hdue (hfollows.stopped (hp _ ht hpt))

/-- A session that leaves for want of a handshake is ready neither before nor after that. -/
lemma History.timeout_unready (h : History settings ledger unixTime turns s) {t t' : Turn}
    (ht : t ∈ turns) {d : Disconnect} (hm : .disconnect d ∈ t.own)
    (hreason : d.reason = .connectionTimeout) (ht' : t' ∈ turns) :
    t'.before.isReady = false ∧ t'.after.isReady = false := by
  obtain ⟨hcoherent, hdue⟩ := h.proceeds t ht
  obtain ⟨hwritten, huncommanded⟩ := Turn.mem_own.mp hm
  obtain ⟨hcause, hstopped⟩ :=
    Turn.parting_of_mem hcoherent hdue hwritten fun m => huncommanded (.send m)
  rw [hreason] at hcause
  have hearly : t.before.handler.state.rank < 2 := by
    cases hcause with
    | commanded hinput => exact absurd hinput (huncommanded _)
    | refused _ hstate =>
      rw [hstate]
      decide
    | late _ hready hlive =>
      cases hstate : t.before.handler.state with
      | awaitingVersion => decide
      | awaitingVerack => decide
      | ready => exact absurd hstate hready
      | stopped => exact absurd hstate hlive
  have hturn : t'.before.Follows t'.after :=
    (step_proceeds (h.proceeds t' ht').1 (h.proceeds t' ht').2).follows
  rcases h.total ht ht' with rfl | hlater | hearlier
  · exact ⟨(Follows.refl _).not_ready hearly, not_ready_of_stopped hstopped⟩
  · have hstopped' := hlater.stopped hstopped
    exact ⟨not_ready_of_stopped hstopped', not_ready_of_stopped (hturn.stopped hstopped')⟩
  · exact ⟨(hturn.trans hearlier).not_ready hearly, hearlier.not_ready hearly⟩

/-- What a session writes after the local version is disciplined. -/
lemma History.disciplined (h : History settings ledger unixTime turns s) : Disciplined turns where
  verack_once := h.verack_once.1
  verack_admitted t ht hm := (Turn.own_verack (h.proceeds t ht).1 (h.proceeds t ht).2 hm).1
  reserved t ht hunready m hm := by
    rw [isReady_eq_false_iff] at hunready
    cases Turn.reason_of_mem (h.proceeds t ht).1 (h.proceeds t ht).2 hm with
    | forwarded _ hready => exact absurd hready hunready
    | working _ hready => exact absurd hready hunready
    | admitted hinput =>
      refine .inl ⟨rfl, Turn.mem_own.mpr ⟨hm, fun c => ?_⟩⟩
      rw [hinput]
      exact SessionInput.noConfusion
    | parted hcause =>
      refine .inr ⟨⟨_, rfl⟩, fun m' hinput => ?_⟩
      cases hcause with
      | commanded hcommand => simp [hcommand] at hinput
      | refused hanswer => simp [hanswer] at hinput
      | late htimeout => simp [htimeout] at hinput
  farewell_last := by
    have hsilent := h.pairwise_silent
      (p := fun t => ∃ d, Message.disconnect d ∈ t.written ∧ ∀ m, t.input ≠ .command (.send m))
      fun t ht ⟨d, hm, hforward⟩ =>
        (Turn.parting_of_mem (h.proceeds t ht).1 (h.proceeds t ht).2 hm hforward).2
    exact hsilent.imp fun hsilent d hm hforward => hsilent ⟨d, hm, hforward⟩
  timeout_unready t ht d hm hreason t' ht' := h.timeout_unready ht hm hreason ht'
  ending_silent t ht hending := by
    obtain ⟨hcoherent, hdue⟩ := h.proceeds t ht
    have hover : t.after.phase = .over := phase_step_of_ending hcoherent hdue hending
    rcases Turn.written_spec hcoherent hdue with hnone | ⟨m, -, -, hwriting⟩
    · exact hnone
    · rw [isWriting, hover] at hwriting
      exact Bool.noConfusion hwriting
  ending_last := by
    refine h.pairwise_silent fun t ht hending => ?_
    obtain ⟨hcoherent, hdue⟩ := h.proceeds t ht
    exact (step_proceeds hcoherent hdue).coherent.stopped
      (.inr (phase_step_of_ending hcoherent hdue hending))

end Session

end PeerNet
