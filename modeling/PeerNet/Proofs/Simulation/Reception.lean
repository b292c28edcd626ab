import PeerNet.Proofs.Manager.Notice
import PeerNet.Proofs.Simulation.Moves

/-!
# What becomes of the messages that were read

A session notices that its reader is finished when nothing else is left for it to do, and a reader
finishes after its last push.  So what was read by then has gone through the mailbox: it was
handled, or it was redundant when it was pushed.

`Line.Reception` keeps what was read at a line beside its run, and what of it was dropped, each with
the items that it was redundant with.  As long as the connection lasts, what was read and not
dropped was taken up in a turn, or it is in the mailbox, or it is held back (`Reception.Accounts`).
-/

namespace PeerNet

namespace Session

/-- The messages of the peer that are taken up, in order. -/
def takenUp (turns : List Turn) : List Message := turns.filterMap (·.input.message?)

lemma takenUp_concat (turns : List Turn) (t : Turn) :
    takenUp (turns ++ [t]) = takenUp turns ++ t.input.message?.toList := by
  rw [takenUp, List.filterMap_append]
  cases h : t.input.message? <;> simp [h, takenUp]

/-- A farewell of the peer ends the session, and the nodes that it names are suggested. -/
lemma onItem_disconnect {s : Session} (hstate : s.handler.state ≠ .stopped) (ledger : Ledger)
    (moment : Moment) (d : Disconnect) :
    (s.onItem ledger moment (.message (.disconnect d))).1.phase = .over ∧
      ∀ records, d.reason.carriesAddresses = true →
        AddressRecord.decodeList d.data = .ok records →
        records.filter AddressRecord.isReachable ≠ [] →
        .notify (.suggested (records.filter AddressRecord.isReachable)) ∈
          (s.onItem ledger moment (.message (.disconnect d))).2 := by
  rw [onItem, Handler.handle_disconnect hstate]
  refine ⟨?_, fun records hreason hdata hsome => ?_⟩
  · have hfarewell := Handler.farewell_onDisconnect s.handler d
    dsimp only
    generalize (s.handler.onDisconnect d).events = events at hfarewell ⊢
    cases hfarewell <;> rfl
  · rw [Handler.onDisconnect_of_decodeList s.handler hreason hdata]
    obtain ⟨first, rest, hreachable⟩ := List.exists_cons_of_ne_nil hsome
    rw [hreachable]
    exact List.mem_cons_self

variable {settings : Settings} {ledger : Ledger} {unixTime : UInt32} {turns : List Turn}
  {s : Session}
  {t : Turn}

/-- What the session of a history does with a message that it takes up. -/
lemma History.result_of_message (h : History settings ledger unixTime turns s) (ht : t ∈ turns)
    {m : Message} (hm : t.input = .item (.message m)) :
    t.result = t.before.onItem t.ledger t.moment (.message m) ∧
      ∀ d, m = .disconnect d → t.after.phase = .over ∧
        ∀ records, d.reason.carriesAddresses = true →
          AddressRecord.decodeList d.data = .ok records →
          records.filter AddressRecord.isReachable ≠ [] →
          .notify (.suggested (records.filter AddressRecord.isReachable)) ∈ t.result.2 := by
  obtain ⟨hcoherent, hdue⟩ := h.proceeds t ht
  rw [hm] at hdue
  have hresult : t.result = t.before.onItem t.ledger t.moment (.message m) := by
    rw [Turn.result, hm]
    exact step_item hdue _
  refine ⟨hresult, ?_⟩
  rintro d rfl
  rw [Turn.after, hresult]
  exact onItem_disconnect (hcoherent.of_idle hdue).1 t.ledger t.moment d

/-- A session that notices that its reader is finished was given no farewell: each of the two would
be its last turn. -/
lemma History.farewell_notMem_takenUp (h : History settings ledger unixTime turns s)
    (ht : t ∈ turns) (hfinished : t.input = .readerFinished) (d : Disconnect) :
    Message.disconnect d ∉ takenUp turns := by
  intro hd
  obtain ⟨t', ht', hmessage⟩ := List.mem_filterMap.mp hd
  have hfarewell : t'.input = .item (.message (.disconnect d)) :=
    SessionInput.eq_of_message? hmessage
  have hover : t.after.phase = .over := by
    obtain ⟨hcoherent, hdue⟩ := h.proceeds t ht
    rw [hfinished] at hdue
    rw [Turn.after, Turn.result, hfinished]
    exact phase_step_of_ending hcoherent hdue .readerFinished
  have hover' : t'.after.phase = .over := ((h.result_of_message ht' hfarewell).2 d rfl).1
  have hsame := (h.getLast?_of_over ht hover).symm.trans (h.getLast?_of_over ht' hover')
  rw [Option.some.inj hsame, hfarewell] at hfinished
  exact SessionInput.noConfusion hfinished

end Session

namespace Line

open Session (Turn History takenUp)

/-! ## The connection at a line -/

/-- A delivery changes the connection, where there is one. -/
lemma connection?_deliver (f : Connection → Connection) (l : Line) :
    (l.deliver f).connection? = l.connection?.map f := by
  rw [deliver]
  cases hend : l.localEnd <;> simp [connection?, hend]

/-- The timer is put into the mailbox when it is time to. -/
lemma connection?_ring (settings : Settings) (now : Nat) (l : Line) :
    ∃ f : Connection → Connection, (l.ring settings now).connection? = l.connection?.map f ∧
      ∀ c, f c = c ∨ f c = { c with mailbox := (c.mailbox.push .timer).1 } := by
  rw [ring]
  split
  · next hend =>
    split
    · refine ⟨fun c => { c with mailbox := (c.mailbox.push .timer).1 }, ?_, fun c => .inr rfl⟩
      rw [connection?_of_localEnd hend]
      rfl
    · exact ⟨id, (Option.map_id_apply).symm, fun c => .inl rfl⟩
  · exact ⟨id, (Option.map_id_apply).symm, fun c => .inl rfl⟩
  · exact ⟨id, (Option.map_id_apply).symm, fun c => .inl rfl⟩

/-- The intake makes a step, or one would change nothing. -/
lemma connection?_moveIntake (l : Line) :
    ((l.moveIntake.map Move.line).getD l).connection? = l.connection?.map fun c =>
      { c with
        intake := (c.intake.step l.toNode.inlet c.mailbox).1
        mailbox := (c.intake.step l.toNode.inlet c.mailbox).2.2 } := by
  rw [moveIntake]
  split
  · next c _ _ hend =>
    rw [connection?_of_localEnd hend]
    split
    · next hwait =>
      rw [Option.map_some, (Intake.step_of_mustWait hwait).1]
      exact connection?_of_localEnd hend
    · rfl
  · next hend =>
    have hnone : l.connection? = none := by rw [connection?, hend]
    rw [hnone]
    exact hnone
  · next hend =>
    have hnone : l.connection? = none := by rw [connection?, hend]
    rw [hnone]
    exact hnone

/-- A run, with what was read in the course of it. -/
structure Reception where
  run : Run
  /-- The messages that the reader brought, in order. -/
  brought : List Message
  /-- Those of them that were dropped, each with what was waiting then. -/
  dropped : List (Message × List MailboxItem)

namespace Reception

/-- One more event; a step of the intake may bring a message. -/
def advance (settings : Settings) (r : Reception) (event : Event) : Reception :=
  let run := r.run.advance settings event
  match event, r.run.line.connection? with
  | .intake, some c =>
    let inlet := r.run.line.toNode.inlet
    ⟨run, r.brought ++ (c.intake.brought? inlet).toList,
      r.dropped ++ (c.intake.dropped? inlet c.mailbox).toList⟩
  | _, _ => { r with run }

/-- The line of a new connection after some events. -/
def after (settings : Settings) (ledger : Ledger) (moment : Moment) (peer : PeerId) (l : Line)
    (events : List Event) : Reception :=
  events.foldl (advance settings) ⟨.start settings ledger moment peer l, [], []⟩

/-- Keeping the account does not change what happens. -/
lemma run_advance (settings : Settings) (r : Reception) (event : Event) :
    (r.advance settings event).run = r.run.advance settings event := by
  unfold advance
  dsimp only
  split <;> rfl

/-- The account is kept of the run itself. -/
lemma run_after (settings : Settings) (ledger : Ledger) (moment : Moment) (peer : PeerId) (l : Line)
    (events : List Event) :
    (after settings ledger moment peer l events).run =
      Run.after settings ledger moment peer l events :=
  (List.foldl_hom Reception.run fun r event => (run_advance settings r event).symm).symm

/-- How what was read is accounted for. -/
inductive Accounts (r : Reception) : Prop
  | connected {c : Connection} (hc : r.run.line.connection? = some c)
    (hopen : c.mailbox.closed = false)
    (hreads : ∀ t ∈ r.run.turns, t.input ≠ .readerFinished)
    (hperm : r.brought.Perm (takenUp r.run.turns ++
      (r.dropped.map Prod.fst ++ (c.intake.held?.toList ++ c.mailbox.messages))))
  | ended (hc : r.run.line.connection? = none)
    (hperm : (∃ t ∈ r.run.turns, t.input = .readerFinished) →
      r.brought.Perm (takenUp r.run.turns ++ r.dropped.map Prod.fst))

variable {settings : Settings} {ledger : Ledger} {moment : Moment} {r : Reception}

/-- Where nothing is read and no turn is taken, nothing changes that matters. -/
lemma Accounts.congr (h : r.Accounts) {run : Run} (hturns : run.turns = r.run.turns)
    {f : Connection → Connection}
    (hconnection : run.line.connection? = r.run.line.connection?.map f)
    (hf : ∀ c, (f c).intake = c.intake ∧ (f c).mailbox.closed = c.mailbox.closed ∧
      (f c).mailbox.messages.Perm c.mailbox.messages) :
    Accounts { r with run } := by
  cases h with
  | @connected c hc hopen hreads hperm =>
    obtain ⟨hintake, hclosed, hmessages⟩ := hf c
    refine .connected (hconnection.trans (congrArg _ hc)) (hclosed.trans hopen) ?_ ?_
    · rw [hturns]
      exact hreads
    · rw [hturns, hintake]
      exact hperm.trans (((hmessages.symm.append_left _).append_left _).append_left _)
  | ended hc hperm =>
    refine .ended (hconnection.trans (congrArg _ hc)) ?_
    rw [hturns]
    exact hperm

/-- What the intake reads is entered as queued, as held, or as dropped. -/
lemma Accounts.intake (h : r.Accounts) : (r.advance settings .intake).Accounts := by
  cases h with
  | @connected c hc hopen hreads hperm =>
    have hadvance : r.advance settings .intake =
        ⟨r.run.advance settings .intake,
          r.brought ++ (c.intake.brought? r.run.line.toNode.inlet).toList,
          r.dropped ++ (c.intake.dropped? r.run.line.toNode.inlet c.mailbox).toList⟩ := by
      simp only [advance, hc]
    rw [hadvance]
    refine .connected ((connection?_moveIntake _).trans (congrArg _ hc))
      ((c.intake.mailbox_step _ _).2.trans hopen) hreads ?_
    have hstep := c.intake.step_perm r.run.line.toNode.inlet hopen
    rw [List.perm_iff_count] at hperm hstep ⊢
    intro m
    have hbefore := hperm m
    have hnow := hstep m
    simp only [Run.advance, List.count_append, List.map_append] at hbefore hnow ⊢
    omega
  | ended hc hperm =>
    have hadvance : r.advance settings .intake =
        { r with run := r.run.advance settings .intake } := by
      simp only [advance, hc]
    rw [hadvance]
    exact .ended ((connection?_moveIntake _).trans (congrArg _ hc)) hperm

/-- The session takes a turn, which may be its last. -/
lemma Accounts.turn (h : r.Accounts) (settings : Settings) {c c' : Connection}
    {input : SessionInput}
    {run : Run}
    (hc : r.run.line.connection? = some c) (hinput : c.TakesUp moment.now input c')
    (hturns : run.turns = r.run.turns ++ [⟨c'.session, ledger, moment, input⟩])
    (hconnection : run.line.connection? = none ∨
      run.line.connection? = some (c'.advance settings ledger moment input).1 ∧
        (c'.session.step ledger moment input).1.phase ≠ .over ∧ input ≠ .readerFinished) :
    Accounts { r with run } := by
  cases h with
  | ended hnone => exact Option.noConfusion rfl (heq_of_eq (hnone.symm.trans hc))
  | @connected c₀ hsame hopen hreads hperm =>
    obtain rfl : c = c₀ := Option.some.inj (hc.symm.trans hsame)
    obtain ⟨hintake, hclosed, hmessages, hend⟩ := hinput.spec
    have htaken : takenUp run.turns = takenUp r.run.turns ++ input.message?.toList := by
      rw [hturns]
      exact Session.takenUp_concat ..
    rcases hconnection with hnone | ⟨hlive, hphase, hreads'⟩
    · refine .ended hnone fun ⟨t, ht, hfinished⟩ => ?_
      rw [hturns] at ht
      rcases List.mem_append.mp ht with ht | ht
      · exact absurd hfinished (hreads t ht)
      · rw [List.mem_singleton.mp ht] at hfinished
        dsimp only at hfinished
        obtain ⟨hempty, hdone⟩ := hend hfinished
        have hnothing : c.mailbox.messages = [] := by
          rw [Mailbox.messages, hempty]
          rfl
        rw [htaken, hfinished]
        rw [hnothing, hdone] at hperm
        simpa [Intake.held?, SessionInput.message?] using hperm
    · have hstays : (c'.advance settings ledger moment input).1.mailbox = c'.mailbox := by
        rw [Connection.advance]
        dsimp only
        rw [Session.isOver, beq_eq_false_iff_ne.mpr hphase]
        exact if_neg Bool.false_ne_true
      refine .connected hlive ?_ ?_ ?_
      · rw [hstays, hclosed]
        exact hopen
      · rw [hturns]
        intro t ht
        rcases List.mem_append.mp ht with ht | ht
        · exact hreads t ht
        · rw [List.mem_singleton.mp ht]
          exact hreads'
      · have hstays' : (c'.advance settings ledger moment input).1.intake = c.intake := hintake
        rw [htaken, hstays, hstays']
        rw [hmessages, List.perm_iff_count] at hperm
        rw [List.perm_iff_count]
        intro m
        have hbefore := hperm m
        simp only [List.count_append] at hbefore ⊢
        omega

/-- Every event keeps the account of what was read. -/
lemma Accounts.advance (h : r.Accounts) (ledger₀ : Ledger) (moment₀ : Moment) (event : Event)
    (hsound : (r.run.advance settings event).Sound settings ledger₀ moment₀) :
    (r.advance settings event).Accounts := by
  cases event with
  | intake => exact h.intake
  | session ledger moment =>
    have hmoves := Run.moves settings ledger moment r.run
    change Accounts { r with run := r.run.advance settings (.session ledger moment) }
    generalize r.run.advance settings (.session ledger moment) = run at hsound hmoves
    cases hmoves with
    | rests => exact h
    | writes hend =>
      refine h.congr (f := id) rfl ?_ fun c => ⟨rfl, rfl, .refl _⟩
      rw [connection?_of_localEnd hend]
      rfl
    | @turn peer c c' writing nextTimer toRemote sent input hend hinput =>
      refine h.turn settings (connection?_of_localEnd hend) hinput rfl ?_
      obtain ⟨s, hhistory, hstanding⟩ := hsound
      obtain ⟨-, hdue, rfl⟩ := hhistory.of_append
      refine (connection?_foldl_apply ..).imp_right fun hsame => ?_
      have hlive := hstanding.ne_over (localEnd_ne_closed hsame)
      refine ⟨hsame, hlive, ?_⟩
      rintro rfl
      have hfinish : c'.session.step ledger moment .readerFinished = c'.session.finish :=
        Session.step_readerFinished hdue
      exact hlive (congrArg (·.1.phase) hfinish)
  | command c =>
    exact h.congr rfl (connection?_deliver _ _) fun c => ⟨rfl, rfl, .refl _⟩
  | answer a => exact h.congr rfl (connection?_deliver _ _) fun c => ⟨rfl, rfl, .refl _⟩
  | ring now =>
    obtain ⟨f, hconnection, hf⟩ := connection?_ring settings now r.run.line
    refine h.congr rfl hconnection fun c => ?_
    rcases hf c with hsame | hpushed
    · rw [hsame]
      exact ⟨rfl, rfl, .refl _⟩
    · rw [hpushed]
      refine ⟨rfl, (c.mailbox.push_fst_spec .timer).2, ?_⟩
      have hpushes := Mailbox.pushes_push c.mailbox .timer
      generalize (c.mailbox.push .timer).1 = b, (c.mailbox.push .timer).2 = result at hpushes ⊢
      cases hpushes with
      | queued _ _ _ hnext =>
        rw [hnext]
        exact c.mailbox.messages_append_perm .timer
      | closed | dropped | blocked => exact .refl _
  | inbound toNode | outbound toRemote =>
    exact h.congr (f := id) rfl Option.map_id_apply.symm fun c => ⟨rfl, rfl, .refl _⟩

/-- After all events, what was read is accounted for. -/
lemma accounts_after (settings : Settings) (ledger : Ledger) (moment : Moment) (peer : PeerId)
    (l : Line) (events : List Event) : (after settings ledger moment peer l events).Accounts := by
  induction events using List.reverseRecOn with
  | nil => exact .connected rfl rfl (List.forall_mem_nil _) (.refl _)
  | append_singleton events event ih =>
    have hsound := Run.sound_after settings ledger moment peer l (events ++ [event])
    rw [← run_after] at hsound
    rw [after, List.foldl_append] at hsound ⊢
    refine ih.advance ledger moment event ?_
    rw [← run_advance]
    exact hsound

/-- Whatever was dropped was redundant beside what was queued. -/
lemma redundant_after (settings : Settings) (ledger : Ledger) (moment : Moment) (peer : PeerId)
    (l : Line) (events : List Event) :
    ∀ p ∈ (after settings ledger moment peer l events).dropped,
      (MailboxItem.message p.1).isRedundant p.2 = true := by
  refine List.foldlRecOn events (advance settings)
    (motive := fun r => ∀ p ∈ r.dropped, (MailboxItem.message p.1).isRedundant p.2 = true) ?_ ?_
  · exact List.forall_mem_nil _
  · intro r ih event _
    unfold advance
    dsimp only
    split
    · intro p hp
      rcases List.mem_append.mp hp with hp | hp
      · exact ih p hp
      · exact Intake.isRedundant_of_dropped (Option.mem_toList.mp hp)
    · exact ih

/-- A session whose mailbox is not empty does not notice that its reader is finished, and is not
idle for long. -/
lemma turn?_of_connection? {s : Session} {all sent : Bytes} {l : Line} {c : Connection}
    (hstanding : Standing s all sent l.localEnd) (hc : l.connection? = some c) (ledger : Ledger)
    (moment : Moment) :
    (∀ t, l.turn? ledger moment = some t → t.input = .readerFinished →
      c.mailbox.queued = [] ∧ c.intake = .finished) ∧
    (c.session.phase = .idle → c.mailbox.queued ≠ [] →
      ∃ t, l.turn? ledger moment = some t ∧ (t.isCommanded = true ∨ ∃ i, t.input = .item i)) := by
  rw [connection?] at hc
  rw [turn?]
  split at hc
  · next hend =>
    cases hc
    rw [hend] at hstanding ⊢
    cases hstanding with
    | writing hsession hwriting =>
      refine ⟨fun t ht hfinished => ?_, fun hidle => ?_⟩
      · dsimp only at ht
        split at ht
        · cases ht
          exact SessionInput.noConfusion hfinished
        · cases ht
      · rw [← hsession, Session.isWriting, hidle] at hwriting
        exact Bool.noConfusion hwriting
    | waiting =>
      refine ⟨fun t ht hfinished => ?_, fun hidle hqueued => ?_⟩
      · obtain ⟨⟨input, c'⟩, hnext, rfl⟩ := Option.map_eq_some_iff.mp ht
        exact (Connection.TakesUp.next hnext).spec.2.2.2 hfinished
      · obtain ⟨input, c', hnext, hinput⟩ :=
          Connection.exists_next?_of_queued hidle hqueued moment.now
        refine ⟨_, Option.map_eq_some_iff.mpr ⟨_, hnext, rfl⟩, ?_⟩
        rcases hinput with ⟨first, rfl⟩ | ⟨i, rfl⟩
        · exact .inl rfl
        · exact .inr ⟨i, rfl⟩
  all_goals cases hc

/-- However the events at a line fall, a session notices that its reader is finished only when its
mailbox is empty; one that is idle turns to the mailbox or to a command as long as something waits
there.  What is dropped is a request that is redundant with one that waits.  So if the session ends
because its reader is finished, then all that was read was handled or dropped: of the messages that
are not such requests none is missing, and no farewell was among them, since the handler ends the
session when it is given one, and suggests the nodes that it names. -/
theorem heard_out_at_end (settings : Settings) (ledger : Ledger) (moment : Moment) (peer : PeerId)
    (l : Line) (events : List Event) :
    let r := after settings ledger moment peer l events
    (∀ c ledger' moment', r.run.line.connection? = some c →
      (∀ t, r.run.line.turn? ledger' moment' = some t → t.input = .readerFinished →
        c.mailbox.queued = [] ∧ c.intake = .finished) ∧
      (c.session.phase = .idle → c.mailbox.queued ≠ [] →
        ∃ t, r.run.line.turn? ledger' moment' = some t ∧
          (t.isCommanded = true ∨ ∃ i, t.input = .item i))) ∧
    (∀ t ∈ r.run.turns, ∀ m, t.input = .item (.message m) →
      t.result = t.before.onItem t.ledger t.moment (.message m) ∧
      ∀ d, m = .disconnect d → t.after.phase = .over ∧
        ∀ records, d.reason.carriesAddresses = true →
          AddressRecord.decodeList d.data = .ok records →
          records.filter AddressRecord.isReachable ≠ [] →
          .notify (.suggested (records.filter AddressRecord.isReachable)) ∈ t.result.2) ∧
    (∀ p ∈ r.dropped, (MailboxItem.message p.1).isRedundant p.2 = true) ∧
    ((∃ t ∈ r.run.turns, t.input = .readerFinished) →
      r.brought.Perm (takenUp r.run.turns ++ r.dropped.map Prod.fst) ∧
      (∀ m ∈ r.brought, m.command ∉ MailboxItem.deduplicatedCommands →
        m ∈ takenUp r.run.turns) ∧
      ∀ d, .disconnect d ∉ r.brought) := by
  intro r
  have hredundant := redundant_after settings ledger moment peer l events
  have hsound := Run.sound_after settings ledger moment peer l events
  rw [← run_after] at hsound
  obtain ⟨s, hhistory, hstanding⟩ := hsound
  have haccounts : r.Accounts := accounts_after settings ledger moment peer l events
  refine ⟨fun c ledger' moment' hc => turn?_of_connection? hstanding hc ledger' moment',
    fun t ht m hm => hhistory.result_of_message ht hm, hredundant, ?_⟩
  rintro ⟨t, ht, hfinished⟩
  have hperm : r.brought.Perm (takenUp r.run.turns ++ r.dropped.map Prod.fst) := by
    cases haccounts with
    | connected _ _ hreads => exact absurd hfinished (hreads t ht)
    | ended _ hperm => exact hperm ⟨t, ht, hfinished⟩
  have htaken : ∀ m ∈ r.brought, m.command ∉ MailboxItem.deduplicatedCommands →
      m ∈ takenUp r.run.turns := by
    intro m hm hcommand
    refine (List.mem_append.mp (hperm.subset hm)).resolve_right fun hdropped => hcommand ?_
    obtain ⟨p, hp, rfl⟩ := List.mem_map.mp hdropped
    exact Mailbox.command_of_isRedundant (hredundant p hp)
  refine ⟨hperm, htaken, fun d hd => ?_⟩
  have hother : (Message.disconnect d).command ∉ MailboxItem.deduplicatedCommands := by
    rw [Message.command]
    decide
  exact hhistory.farewell_notMem_takenUp ht hfinished d (htaken _ hd hother)

/-- Of two requests for the mempool in a row the second is dropped; the inventory behind them is
taken up although the stream is closed by then, and only then does the session end.  A farewell with
a node to try is heard in the same way. -/
theorem heard_out_at_end_of_requests :
    ∃ (ledger : Ledger) (waiting rest farewell : List Event) (last : Event) (d : Disconnect)
      (record : AddressRecord),
      let reception := after (.standard (.ofMagic 0 0)) ledger ⟨0, 0⟩ ⟨1⟩
        (Line.start "remote" .closed 1000 false)
      let ended := reception (waiting ++ rest ++ [last])
      (∃ t, (reception waiting).run.line.turn? ledger ⟨0, 0⟩ = some t ∧
        (t.isCommanded = true ∨ ∃ i, t.input = .item i)) ∧
      (∃ c, (reception (waiting ++ rest)).run.line.connection? = some c ∧ c.mailbox.queued = [] ∧
        c.intake = .finished) ∧
      (∃ p ∈ ended.dropped, (MailboxItem.message p.1).isRedundant p.2 = true) ∧
      ended.brought.Perm (takenUp ended.run.turns ++ ended.dropped.map Prod.fst) ∧
      .inv ⟨.block, []⟩ ∈ takenUp ended.run.turns ∧ .disconnect d ∉ ended.brought ∧
      ∃ t ∈ (reception farewell).run.turns,
        t.result = t.before.onItem t.ledger t.moment (.message (.disconnect d)) ∧
        t.after.phase = .over ∧ .notify (.suggested [record]) ∈ t.result.2 := by
  let ledger : Ledger := MemoryLedger.toLedger ⟨[], none, [], [], [], [], none, 16⟩
  let now : Moment := ⟨0, 0⟩
  let version : Message := .version ⟨0, 0, 0, 1, "", []⟩
  let record : AddressRecord := .ofIp default 0 [.tcpServer 1]
  let d : Disconnect :=
    ⟨.maxConnectionReached, "", AddressRecord.encodeList [record]⟩
  let session : Event := .session ledger now
  let opening (messages : List Message) : List Event :=
    [session, .inbound ⟨1000, ⟨messages.flatMap Message.encode, some .closed⟩, false⟩] ++
      List.replicate 30 .intake ++ [session]
  let waiting : List Event :=
    opening [version, .verack, .mempool, .mempool, .inv ⟨.block, []⟩] ++
      [.answer (.verdict (.ok ())), session, session]
  let rest : List Event := List.replicate 3 session
  let farewell : List Event := opening [version, .disconnect d] ++
    [.answer (.verdict (.ok ())), session, session, session]
  obtain ⟨reception, hreception⟩ : ∃ f, f = after (.standard (.ofMagic 0 0)) ledger now ⟨1⟩
    (Line.start "remote" .closed 1000 false) := ⟨_, rfl⟩
  have hheard := heard_out_at_end (.standard (.ofMagic 0 0)) ledger now ⟨1⟩
    (Line.start "remote" .closed 1000 false)
  rw [← hreception] at hheard
  refine ⟨ledger, waiting, rest, farewell, session, d, record, ?_⟩
  dsimp only
  rw [← hreception]
  have hfinished : ∀ input : SessionInput, (input matches .readerFinished) = true →
      input = .readerFinished := by
    intro input h
    cases input <;> first | rfl | exact Bool.noConfusion h
  refine ⟨?_, ?_, ?_, ?_⟩
  · have hwaits : (reception waiting).run.line.connection?.any
        (fun c => c.session.phase == .idle && !c.mailbox.queued.isEmpty) = true := by
      rw [hreception]
      decide +kernel
    obtain ⟨c, hc, hwaits⟩ := (Option.any_eq_true _ _).mp hwaits
    obtain ⟨hidle, hqueued⟩ := Bool.and_eq_true_iff.mp hwaits
    refine ((hheard waiting).1 c ledger now hc).2 (eq_of_beq hidle) ?_
    simpa using hqueued
  · have hconnected : (reception (waiting ++ rest)).run.line.connection?.isSome = true := by
      rw [hreception]
      decide +kernel
    have hfinishes : ((reception (waiting ++ rest)).run.line.turn? ledger now).any
        (fun t => t.input matches .readerFinished) = true := by
      rw [hreception]
      decide +kernel
    obtain ⟨c, hc⟩ := Option.isSome_iff_exists.mp hconnected
    obtain ⟨t, ht, hinput⟩ := (Option.any_eq_true _ _).mp hfinishes
    exact ⟨c, hc, ((hheard (waiting ++ rest)).1 c ledger now hc).1 t ht (hfinished _ hinput)⟩
  · have hdropped : (reception (waiting ++ rest ++ [session])).dropped.length = 1 := by
      rw [hreception]
      decide +kernel
    obtain ⟨p, hp⟩ := List.length_eq_one_iff.mp hdropped
    refine ⟨p, ?_, ?_⟩
    · rw [hp]
      exact List.mem_cons_self
    · refine (hheard (waiting ++ rest ++ [session])).2.2.1 p ?_
      rw [hp]
      exact List.mem_cons_self
  · have hover : (reception (waiting ++ rest ++ [session])).run.turns.any
        (fun t => t.input matches .readerFinished) = true := by
      rw [hreception]
      decide +kernel
    have hinv : .inv ⟨.block, []⟩ ∈ (reception (waiting ++ rest ++ [session])).brought := by
      rw [hreception]
      decide +kernel
    have hfarewell : .disconnect d ∈ takenUp (reception farewell).run.turns := by
      rw [hreception]
      decide +kernel
    have hdata : AddressRecord.decodeList d.data = .ok [record] := by
      decide +kernel
    obtain ⟨t, ht, hinput⟩ := List.any_eq_true.mp hover
    obtain ⟨hperm, htaken, hnone⟩ := (hheard (waiting ++ rest ++ [session])).2.2.2
      ⟨t, ht, hfinished _ hinput⟩
    obtain ⟨t', ht', hmessage⟩ := List.mem_filterMap.mp hfarewell
    obtain ⟨hresult, hlast⟩ := (hheard farewell).2.1 t' ht' _ (SessionInput.eq_of_message? hmessage)
    obtain ⟨hphase, hsuggested⟩ := hlast d rfl
    refine ⟨hperm, htaken _ hinv (by decide), hnone d, t', ht', hresult, hphase, ?_⟩
    exact hsuggested [record] rfl hdata (by decide)

end Reception

end Line

end PeerNet
