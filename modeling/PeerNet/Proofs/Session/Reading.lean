import PeerNet.Proofs.Frame.Leading
import PeerNet.Proofs.Session.Connection

/-!
# What an intake pushes

Bytes arrive in pieces of any size, the stream may end, the mailbox fills up and is emptied, and the
intake makes a step now and then (`Intake.Run`).  Whatever the order, the intake stands behind the
frames of the messages that it has pushed, and when it is finished then for good, and for a reason:
the mailbox is closed, the stream was reset, or what stands behind these frames is none and does not
become one (`Intake.Run.Sound`).

A message that is pushed arrives.  Of every try to push one it is on record what the mailbox
answered, and the messages whose push was answered `queued` are, lane by lane and in that order,
those that were taken out of the mailbox followed by those that are in it (`Intake.Run.Accounted`).

An intake whose mailbox is emptied comes to rest.  A step uses up bytes, or it completes something,
or the lane of its message is full (`Intake.Progress`); then the next delivery makes room.
-/

namespace PeerNet

namespace Intake

/-- What can happen at an intake. -/
inductive Event
  /-- More bytes arrive, unless the stream has ended. -/
  | arrive (chunk : Bytes)
  | finish (ending : StreamEnd)
  | step
  /-- The timer is put into the mailbox. -/
  | ring
  /-- The next item is taken out of the mailbox. -/
  | receive
  /-- The mailbox is closed. -/
  | close

/-- A try to push a message. -/
structure Attempt where
  message : Message
  /-- What waited in the mailbox at that time. -/
  waiting : List MailboxItem
  /-- What the mailbox answered. -/
  result : PushResult

/-- The try to push a message that a step makes. -/
def attempt? (intake : Intake) (inlet : Inlet) (b : Mailbox) : Option Attempt :=
  (intake.pushed? inlet).map fun m => ⟨m, b.queued, (b.push (.message m)).2⟩

/-- The messages of those tries that got some answer. -/
def answered (answers : PushResult → Bool) (attempts : List Attempt) : List Message :=
  (attempts.filter fun a => answers a.result).map Attempt.message

/-- An intake between its stream and its mailbox. -/
structure Run where
  intake : Intake
  inlet : Inlet
  mailbox : Mailbox
  /-- All bytes that have arrived. -/
  stream : Bytes
  /-- All tries to push a message, in order. -/
  attempts : List Attempt
  /-- All items that were taken out of the mailbox, in order. -/
  received : List MailboxItem

namespace Run

/-- Nothing has happened yet. -/
def start (capacity : Nat) : Run := ⟨.start, .empty, .ofCapacity capacity, [], [], []⟩

/-- The messages that were handed to the mailbox, in order: those whose push is over, and the one
whose push waits. -/
def pushed (run : Run) : List Message :=
  answered (· != .blocked) run.attempts ++ run.intake.held?.toList

/-- One thing happens; a message is pushed as soon as it is there. -/
def advance (run : Run) : Event → Run
  | .arrive chunk =>
    if run.inlet.ending.isSome then run
    else
      { run with
        inlet := { run.inlet with arrived := run.inlet.arrived ++ chunk }
        stream := run.stream ++ chunk }
  | .finish ending => { run with inlet := run.inlet.finish ending }
  | .step =>
    let (intake, inlet, mailbox) := run.intake.step run.inlet run.mailbox
    { run with
      intake, inlet, mailbox
      attempts := run.attempts ++ (run.intake.attempt? run.inlet run.mailbox).toList }
  | .ring => { run with mailbox := (run.mailbox.push .timer).1 }
  | .receive =>
    { run with
      mailbox := run.mailbox.receive.1
      received := run.received ++ run.mailbox.receive.2.toList }
  | .close => { run with mailbox := run.mailbox.close }

/-- What some events lead to. -/
def after (capacity : Nat) (events : List Event) : Run := events.foldl advance (start capacity)

/-- The bytes that the stream gives; of one that was reset, those that were taken before. -/
def given (run : Run) : Bytes :=
  if run.inlet.ending = some .reset then run.stream.rdrop run.inlet.arrived.length else run.stream

/-- Why an intake is finished that has taken some bytes behind the last message. -/
inductive Stopped (inlet : Inlet) (mailbox : Mailbox) (taken : Bytes) : Prop
  | refused (hclosed : mailbox.closed = true)
  | reset (hreset : inlet.ending = some .reset) (hnone : firstRead false taken = none)
  | failed {e : TransportError} {used : Nat}
    (hread : firstRead inlet.ending.isSome (taken ++ inlet.arrived) = some (.error e, used))

/-- Some messages lead a stream, and the intake stands behind them. -/
inductive Stands (intake : Intake) (inlet : Inlet) (mailbox : Mailbox) (stream : Bytes)
    (messages : List Message) : Prop
  | reading {reader : FrameReader}
    (hintake : intake = .reading reader ∨ ∃ m, intake = .holding reader m)
    (hvalid : reader.Valid)
    (hleads : Leads stream messages (reader.received.reverse ++ inlet.arrived))
  | finished {taken : Bytes} (hintake : intake = .finished)
    (hleads : Leads stream messages (taken ++ inlet.arrived))
    (hstopped : Stopped inlet mailbox taken)

/-- What was pushed leads the stream, and the intake stands behind it. -/
def Sound (run : Run) : Prop :=
  Stands run.intake run.inlet run.mailbox run.stream run.pushed

variable {run : Run}

/-- At first nothing is pushed, and the intake stands at the start. -/
lemma sound_start (capacity : Nat) : (start capacity).Sound :=
  .reading (.inl rfl) FrameReader.valid_start (.nil _)

/-- Bytes that arrive leave what was pushed at the front of the stream. -/
lemma Sound.arrive (h : run.Sound) (chunk : Bytes) : (run.advance (.arrive chunk)).Sound := by
  rw [advance]
  split_ifs with hended
  · exact h
  · cases h with
    | reading hintake hvalid hleads =>
      refine .reading hintake hvalid ?_
      dsimp only
      rw [← List.append_assoc]
      exact hleads.append chunk
    | @finished taken hintake hleads hstopped =>
      have hmore := hleads.append chunk
      rw [List.append_assoc] at hmore
      refine .finished hintake hmore ?_
      cases hstopped with
      | refused hclosed => exact .refused hclosed
      | reset hreset => exact absurd (congrArg Option.isSome hreset) hended
      | failed hread =>
        rw [Bool.eq_false_iff.mpr hended] at hread
        have hlater := firstRead_append hread run.inlet.ending.isSome chunk
        rw [List.append_assoc] at hlater
        exact .failed hlater

/-- The end of the stream does not make up for a front that is none. -/
lemma Sound.finish (h : run.Sound) (ending : StreamEnd) : (run.advance (.finish ending)).Sound := by
  rw [advance, Inlet.finish]
  split_ifs with hreset
  · exact h
  · cases h with
    | reading hintake hvalid hleads => exact .reading hintake hvalid hleads
    | finished hintake hleads hstopped =>
      refine .finished hintake hleads ?_
      cases hstopped with
      | refused hclosed => exact .refused hclosed
      | reset hreset' => exact absurd hreset' hreset
      | failed hread => exact .failed (firstRead_true hread)

/-- What is put into the mailbox or taken out of it does not concern the intake. -/
lemma Sound.congr (h : run.Sound) {mailbox : Mailbox}
    (hclosed : run.mailbox.closed = true → mailbox.closed = true) :
    Sound { run with mailbox } := by
  cases h with
  | reading hintake hvalid hleads => exact .reading hintake hvalid hleads
  | finished hintake hleads hstopped =>
    refine .finished hintake hleads ?_
    cases hstopped with
    | refused hrefused => exact .refused (hclosed hrefused)
    | reset hreset hnone => exact .reset hreset hnone
    | failed hread => exact .failed hread

/-- A message that is offered to the mailbox was read before. -/
lemma Stands.of_offers {reader : FrameReader} {m : Message} {inlet : Inlet} {mailbox : Mailbox}
    {r : Intake × Mailbox} {stream : Bytes} {messages : List Message}
    (hoffers : Offers reader m mailbox r) (hvalid : reader.Valid)
    (hleads : Leads stream messages (reader.received.reverse ++ inlet.arrived)) :
    Stands r.1 inlet r.2 stream messages := by
  cases hoffers with
  | queued | dropped => exact .reading (.inl rfl) hvalid hleads
  | blocked => exact .reading (.inr ⟨m, rfl⟩) hvalid hleads
  | closed _ hclosed => exact .finished rfl hleads (.refused hclosed)

/-- A step goes past the frame of the message that it brings, or past none. -/
lemma Stands.step {intake : Intake} {inlet : Inlet} {mailbox : Mailbox} {stream : Bytes}
    {messages : List Message} (h : Stands intake inlet mailbox stream messages) :
    Stands (intake.step inlet mailbox).1 (intake.step inlet mailbox).2.1
      (intake.step inlet mailbox).2.2 stream (messages ++ (intake.brought? inlet).toList) := by
  have hsteps := steps_step intake inlet mailbox
  generalize intake.brought? inlet = brought, intake.step inlet mailbox = r at hsteps ⊢
  cases h with
  | @reading reader hintake hvalid hleads =>
    rcases hintake with rfl | ⟨m, rfl⟩
    · have hparses := FrameReader.parses_step hvalid reader.missing inlet
      have hending := reader.ending_step reader.missing inlet
      cases hsteps with
      | reads hstep houtcome =>
        rw [hstep] at hparses
        rcases houtcome with rfl | rfl
        all_goals
          cases hparses with
          | nothing _ hvalid' hbytes =>
            rw [← hbytes] at hleads
            exact .reading (.inl rfl) hvalid' (by simpa using hleads)
      | fails hstep =>
        rw [hstep] at hparses hending
        dsimp only
        rw [Option.toList_none, List.append_nil]
        cases hparses with
        | nothing houtcome => exact absurd houtcome (by simp)
        | reset hreset hsame hnone =>
          subst hsame
          exact .finished rfl hleads (.reset hreset hnone)
        | failure hread hbytes =>
          rw [← hending] at hread
          rw [← hbytes] at hleads
          exact .finished rfl hleads (.failed hread)
      | brings hstep hoffers =>
        rw [hstep] at hparses
        cases hparses with
        | nothing houtcome => exact absurd houtcome (by simp)
        | message hframe hvalid' hbytes =>
          rw [← hbytes] at hleads
          exact .of_offers hoffers hvalid' (hleads.concat hframe)
    · cases hsteps with
      | retries hoffers => exact .of_offers hoffers hvalid (by simpa using hleads)
  | finished hintake hleads hstopped =>
    subst hintake
    cases hsteps with
    | rests => exact .finished rfl (by simpa using hleads) hstopped

/-- What a step hands to the mailbox is what it brings: to push again what is held back is the same
push. -/
lemma pushed_step (run : Run) :
    (run.advance .step).pushed = run.pushed ++ (run.intake.brought? run.inlet).toList := by
  obtain ⟨intake, inlet, mailbox, stream, attempts, received⟩ := run
  have hpush := step_push intake inlet mailbox
  have hsteps := steps_step intake inlet mailbox
  rw [pushed, pushed, advance, attempt?]
  dsimp only
  rw [pushed?] at hpush ⊢
  generalize intake.brought? inlet = brought, intake.step inlet mailbox = r at hsteps hpush ⊢
  cases hsteps with
  | reads | fails | rests => simp [held?]
  | @brings _ _ _ m _ _ hoffers | @retries _ m _ hoffers =>
    obtain ⟨-, hheld⟩ := hoffers.spec
    dsimp only
    rw [hheld]
    by_cases hblocked : (mailbox.push (.message m)).2 = .blocked
    all_goals simp [held?, answered, hblocked]

/-- A step of the intake leaves what was pushed at the front of the stream. -/
lemma Sound.step (h : run.Sound) : (run.advance .step).Sound := by
  rw [Sound, pushed_step]
  exact Stands.step h

/-- Whatever happens, the intake stands behind what was pushed. -/
lemma Sound.advance (h : run.Sound) (event : Event) : (run.advance event).Sound := by
  cases event with
  | arrive chunk => exact h.arrive chunk
  | finish ending => exact h.finish ending
  | step => exact h.step
  | ring => exact h.congr fun hclosed => ((run.mailbox.push_fst_spec .timer).2).trans hclosed
  | receive => exact h.congr fun hclosed => ((run.mailbox.receive_fst_spec).2).trans hclosed
  | close => exact h.congr fun _ => rfl

/-- After all events, what was pushed leads the stream. -/
lemma sound_after (capacity : Nat) (events : List Event) : (after capacity events).Sound :=
  List.foldlRecOn events advance (sound_start capacity) fun _ h event _ => h.advance event

/-! ## What becomes of the messages -/

/-- The messages for a lane. -/
def ofLane (p : Bool) (messages : List Message) : List Message :=
  messages.filter fun m => (MailboxItem.message m).isHighPriority == p

/-- The account of a mailbox into which an intake pushes. -/
structure Accounted (run : Run) : Prop where
  orderly : run.mailbox.Orderly
  /-- What was queued was taken out of the mailbox or is in it. -/
  conveyed : ∀ p, ofLane p (answered (· == .queued) run.attempts) =
    (run.received.filter (·.isHighPriority == p) ++ run.mailbox.contents p).filterMap
      MailboxItem.message?
  /-- What was dropped added nothing to what waited, and the mailbox that refused something is
  closed. -/
  justified : ∀ a ∈ run.attempts,
    (a.result = .dropped → (MailboxItem.message a.message).isRedundant a.waiting = true) ∧
    (a.result = .closed → run.mailbox.closed = true)

/-- At first nothing was pushed, and the mailbox is empty. -/
lemma accounted_start (capacity : Nat) : (start capacity).Accounted where
  orderly := Mailbox.orderly_ofCapacity capacity
  conveyed p := by cases p <;> rfl
  justified := List.forall_mem_nil _

/-- An item that is put into the mailbox goes to the end of its lane, a message with the others. -/
lemma filterMap_contents_push (b : Mailbox) (item : MailboxItem) (p : Bool) :
    ((b.push item).1.contents p).filterMap MailboxItem.message? =
      (b.contents p).filterMap MailboxItem.message? ++
        if (b.push item).2 = .queued ∧ item.isHighPriority = p then item.message?.toList
        else [] := by
  rw [Mailbox.contents_push, List.filterMap_append]
  congr 1
  split_ifs
  · cases item <;> rfl
  · rfl

/-- A push keeps the account, if it is put on record. -/
lemma Accounted.push (h : run.Accounted) (m : Message) {intake : Intake} {inlet : Inlet} :
    Accounted { run with
      intake, inlet
      mailbox := (run.mailbox.push (.message m)).1
      attempts :=
        run.attempts ++ [⟨m, run.mailbox.queued, (run.mailbox.push (.message m)).2⟩] } := by
  refine ⟨h.orderly.push _, fun p => ?_, fun a ha => ?_⟩
  · have hconveyed := h.conveyed p
    dsimp only
    rw [List.filterMap_append, filterMap_contents_push, ← List.append_assoc,
      ← List.filterMap_append, ← hconveyed]
    by_cases hqueued : (run.mailbox.push (.message m)).2 = .queued
    all_goals by_cases hp : (MailboxItem.message m).isHighPriority = p
    all_goals simp [ofLane, answered, hqueued, hp, MailboxItem.message?]
  · have hclosed := (run.mailbox.push_fst_spec (.message m)).2
    rcases List.mem_append.mp ha with hold | hnew
    · obtain ⟨hdropped, hrefused⟩ := h.justified a hold
      exact ⟨hdropped, fun hresult => hclosed.trans (hrefused hresult)⟩
    · rw [List.mem_singleton.mp hnew]
      have hpushes := run.mailbox.pushes_push (.message m)
      dsimp only at hpushes ⊢
      generalize run.mailbox.push (.message m) = r at hpushes hclosed ⊢
      obtain ⟨b', result⟩ := r
      cases hpushes with
      | closed hrefused => exact ⟨PushResult.noConfusion, fun _ => hrefused⟩
      | dropped _ hredundant => exact ⟨fun _ => hredundant, PushResult.noConfusion⟩
      | queued | blocked => exact ⟨PushResult.noConfusion, PushResult.noConfusion⟩

/-- A step of the intake keeps the account: a push that it makes is on record with its result. -/
lemma Accounted.step (h : run.Accounted) : (run.advance .step).Accounted := by
  have hpush := step_push run.intake run.inlet run.mailbox
  rw [advance, attempt?]
  dsimp only
  generalize run.intake.step run.inlet run.mailbox = r at hpush ⊢
  obtain ⟨intake, inlet, mailbox⟩ := r
  split at hpush
  · next m hm =>
    obtain ⟨rfl, -⟩ := hpush
    rw [hm]
    exact h.push m
  · next hm =>
    obtain ⟨rfl, -⟩ := hpush
    rw [hm, Option.map_none, Option.toList_none, List.append_nil]
    exact ⟨h.orderly, h.conveyed, h.justified⟩

/-- The timer is no message, so it changes nothing about the account. -/
lemma Accounted.ring (h : run.Accounted) : (run.advance .ring).Accounted := by
  refine ⟨h.orderly.push .timer, fun p => ?_, fun a ha => ?_⟩
  · refine (h.conveyed p).trans ?_
    rw [advance]
    dsimp only
    rw [List.filterMap_append, List.filterMap_append, filterMap_contents_push]
    simp [MailboxItem.message?]
  · obtain ⟨hdropped, hrefused⟩ := h.justified a ha
    exact ⟨hdropped, fun h => ((run.mailbox.push_fst_spec .timer).2).trans (hrefused h)⟩

/-- What is received leaves the lanes and counts among the deliveries. -/
lemma Accounted.receive (h : run.Accounted) : (run.advance .receive).Accounted := by
  refine ⟨h.orderly.fst_receive, fun p => ?_, fun a ha => ?_⟩
  · have htaken := h.orderly.filter_append_contents run.received p
    exact (h.conveyed p).trans (congrArg (List.filterMap MailboxItem.message?) htaken.symm)
  · obtain ⟨hdropped, hrefused⟩ := h.justified a ha
    exact ⟨hdropped, fun hresult => run.mailbox.receive_fst_spec.2.trans (hrefused hresult)⟩

/-- Whatever happens, the account balances. -/
lemma Accounted.advance (h : run.Accounted) (event : Event) : (run.advance event).Accounted := by
  cases event with
  | arrive chunk =>
    rw [Run.advance]
    split
    · exact h
    · exact ⟨h.orderly, h.conveyed, h.justified⟩
  | finish ending => exact ⟨h.orderly, h.conveyed, h.justified⟩
  | step => exact h.step
  | ring => exact h.ring
  | receive => exact h.receive
  | close =>
    refine ⟨⟨h.orderly.sorted, h.orderly.bounded, h.orderly.single⟩, h.conveyed, fun a ha => ?_⟩
    exact ⟨(h.justified a ha).1, fun _ => rfl⟩

/-- After all events the account of the mailbox adds up. -/
lemma accounted_after (capacity : Nat) (events : List Event) : (after capacity events).Accounted :=
  List.foldlRecOn events Run.advance (accounted_start capacity) fun _ h event _ => h.advance event

/-- What is in the mailbox, or was taken out of it, was pushed. -/
lemma Accounted.mem_pushed (h : run.Accounted) {m : Message}
    (hm : .message m ∈ run.received ++ run.mailbox.queued) : m ∈ run.pushed := by
  have hlane : ∃ p, .message m ∈
      run.received.filter (·.isHighPriority == p) ++ run.mailbox.contents p := by
    rcases List.mem_append.mp hm with hreceived | hqueued
    · exact ⟨_, List.mem_append_left _ (List.mem_filter.mpr ⟨hreceived, beq_self_eq_true _⟩)⟩
    · rw [Mailbox.queued_perm_contents] at hqueued
      rcases List.mem_append.mp hqueued with hhigh | hlow
      · exact ⟨true, List.mem_append_right _ hhigh⟩
      · exact ⟨false, List.mem_append_right _ hlow⟩
  obtain ⟨p, hp⟩ := hlane
  have hconveyed : m ∈ ofLane p (answered (· == .queued) run.attempts) := by
    rw [h.conveyed p]
    exact List.mem_filterMap.mpr ⟨_, hp, rfl⟩
  obtain ⟨a, ha, rfl⟩ := List.mem_map.mp (List.mem_of_mem_filter hconveyed)
  obtain ⟨hattempt, hqueued⟩ := List.mem_filter.mp ha
  refine List.mem_append_left _ (List.mem_map_of_mem (List.mem_filter.mpr ⟨hattempt, ?_⟩))
  rw [eq_of_beq hqueued]
  rfl

/-! ## The whole sequence -/

/-- The intake has nothing to do before something arrives: it is finished, or it waits for bytes. -/
def AtRest (run : Run) : Prop :=
  run.intake = .finished ∨
    ∃ reader, run.intake = .reading reader ∧ reader.needsStream = true ∧ run.inlet.isSilent = true

/-- What the stream gives behind the messages, if some of it was taken. -/
def front (run : Run) (taken : Bytes) : Bytes :=
  if run.inlet.ending = some .reset then taken else taken ++ run.inlet.arrived

/-- What was pushed leads the bytes that the intake was given. -/
lemma leads_given {taken : Bytes} (h : Leads run.stream run.pushed (taken ++ run.inlet.arrived)) :
    Leads run.given run.pushed (run.front taken) := by
  rw [given, front]
  split_ifs with hreset
  · obtain ⟨before, hstream⟩ := h.isSuffix
    rw [← List.append_assoc] at hstream
    rw [← hstream] at h ⊢
    rw [List.rdrop_append_length]
    exact h.of_append
  · exact h

/-- What was pushed leads what the stream gives, and at rest there is no more to push. -/
lemma Sound.exists_leads_given (h : run.Sound) : ∃ rest, Leads run.given run.pushed rest ∧
    (run.AtRest → run.mailbox.closed = false → Frameless rest) := by
  cases h with
  | @reading reader hintake hvalid hleads =>
    refine ⟨_, leads_given hleads, fun hrest _ => ?_⟩
    have hwaits : reader.needsStream = true ∧ run.inlet.isSilent = true := by
      rcases hrest with hfinished | ⟨reader', hreading, hwaits⟩
      · rcases hintake with hintake | ⟨m, hintake⟩ <;>
          exact Intake.noConfusion (hintake.symm.trans hfinished)
      · rcases hintake with hintake | ⟨m, hintake⟩
        · obtain rfl := Intake.reading.inj (hintake.symm.trans hreading)
          exact hwaits
        · exact Intake.noConfusion (hintake.symm.trans hreading)
    obtain ⟨hneeds, hsilent⟩ := hwaits
    have hfront : run.front reader.received.reverse = reader.received.reverse := by
      rw [front, List.isEmpty_iff.mp (Bool.and_eq_true_iff.mp hsilent).1, List.append_nil, ite_self]
    rw [hfront]
    refine frameless_of_firstRead false fun m used hread => ?_
    rw [firstRead, FrameReader.of_received_of_missing_ne_zero hvalid (bne_iff_ne.mp hneeds)]
      at hread
    cases hread
  | @finished taken _ hleads hstopped =>
    refine ⟨_, leads_given hleads, fun _ hopen => ?_⟩
    cases hstopped with
    | refused hclosed => exact Bool.noConfusion (hopen.symm.trans hclosed)
    | reset hreset hnone =>
      rw [front, if_pos hreset]
      refine frameless_of_firstRead false fun m used hread => ?_
      rw [hnone] at hread
      cases hread
    | failed hread =>
      have hnever := frameless_of_firstRead run.inlet.ending.isSome fun m used hread' => by
        rw [hread] at hread'
        cases hread'
      rw [front]
      split
      · exact hnever.of_append
      · exact hnever

/-- Nothing of what stands behind a front that is no frame was pushed. -/
lemma Sound.isPrefix_of_spoilt (h : run.Sound) {messages : List Message} {rest : Bytes}
    (hleads : Leads run.stream messages rest) (hspoilt : Spoilt rest) :
    run.pushed <+: messages := by
  cases h with
  | reading _ _ hpushed | finished _ hpushed => exact hleads.isPrefix hpushed hspoilt.frameless

end Run

end Intake

/-! ## Coming to rest -/

namespace FrameReader

variable {limit : Nat} {r next : FrameReader} {inlet rest : Inlet}

/-- How many steps a reader may still make without bytes of the stream, and one for the message that
comes of it. -/
def weight (r : FrameReader) : Nat := if r.missing = 0 then 2 + stagesLeft r.stage else 0

/-- A step uses up bytes, or completes a stage. -/
lemma weight_lt_of_step (h : r.step limit inlet = (next, rest, none)) :
    rest.arrived.length < inlet.arrived.length ∨
      rest.arrived.length = inlet.arrived.length ∧ next.weight < r.weight := by
  refine (lt_of_step h).imp_right fun ⟨hsame, hlater⟩ => ⟨hsame, ?_⟩
  by_cases hmissing : r.missing = 0
  · rw [weight, weight, if_pos hmissing]
    split <;> omega
  · rw [step, if_neg hmissing] at h
    split at h
    · cases h
    · split at h
      · split at h <;> cases h
      · cases h
        exact absurd hlater (lt_irrefl _)

/-- A reader that has completed a frame begins with the next. -/
lemma eq_start_of_complete {m : Message} (h : r.complete = .done next (.ok m)) : next = start := by
  have hpayload : ∀ size, r.toPayload size ≠ .done next (.ok m) := by
    intro size hdone
    rw [toPayload] at hdone
    split at hdone <;> cases hdone
  rw [complete] at h
  split at h
  · split at h
    · split at h
      · cases h
      · dsimp only at h
        split at h
        · exact absurd h (hpayload _)
        · cases h
    · cases h
  · exact absurd h (hpayload _)
  · exact (Completion.done.inj h).1.symm

/-- A message is brought only by a step that needs nothing of the stream, and the next one starts a
frame. -/
lemma step_eq_ok {m : Message} (h : r.step limit inlet = (next, rest, some (.finished (.ok m)))) :
    r.missing = 0 ∧ next = start ∧ rest = inlet := by
  rw [step] at h
  split at h
  · next hmissing =>
    split at h
    · next hcomplete =>
      cases h
      exact ⟨hmissing, eq_start_of_complete hcomplete, rfl⟩
    · cases h
  · split at h
    · cases h
    · split at h
      · split at h <;> cases h
      · cases h

/-- A reader that waits does so for bytes. -/
lemma step_eq_waiting (h : r.step limit inlet = (next, rest, some .waiting)) :
    next = r ∧ rest = inlet ∧ r.needsStream = true ∧ inlet.isSilent = true := by
  rw [step] at h
  split at h
  · split at h <;> cases h
  · next hmissing =>
    split at h
    · cases h
    · split at h
      · next hempty =>
        split at h
        · next hlive =>
          cases h
          refine ⟨rfl, rfl, bne_iff_ne.mpr hmissing, ?_⟩
          rw [Inlet.isSilent, hempty, hlive]
          rfl
        · cases h
      · cases h

end FrameReader

namespace Intake

/-- How many steps an intake may still make without bytes of the stream. -/
def weight : Intake → Nat
  | .reading reader => reader.weight
  | .holding reader _ => reader.weight + 1
  | .finished => 0

/-- A step of the intake brings it to rest, or uses up bytes, or completes something, or finds its
lane full. -/
inductive Progress (intake : Intake) (inlet : Inlet) (b : Mailbox) :
    Intake × Inlet × Mailbox → Prop
  | rests {r : Intake × Inlet × Mailbox} (hrest : r.1 = .finished ∨
      ∃ reader, r.1 = .reading reader ∧ reader.needsStream = true ∧ r.2.1.isSilent = true) :
    Progress intake inlet b r
  | advances {r : Intake × Inlet × Mailbox}
    (hless : Prod.Lex (· < ·) (· < ·) (r.2.1.arrived.length, r.1.weight)
      (inlet.arrived.length, intake.weight)) : Progress intake inlet b r
  | blocked (hfull : b.laneCapacity ≤ b.queued.length) : Progress intake inlet b (intake, inlet, b)

/-- Where nothing has arrived, a smaller weight is progress. -/
lemma Progress.of_weight {intake : Intake} {inlet : Inlet} {b : Mailbox}
    {r : Intake × Inlet × Mailbox} (hsame : r.2.1.arrived.length = inlet.arrived.length)
    (hless : r.1.weight < intake.weight) : Progress intake inlet b r := by
  refine .advances ?_
  rw [hsame]
  exact .right _ hless

/-- Every step of the intake makes progress, or brings it to rest. -/
lemma progress_step (intake : Intake) (inlet : Inlet) (b : Mailbox) :
    Progress intake inlet b (intake.step inlet b) := by
  have hsteps := steps_step intake inlet b
  generalize intake.brought? inlet = brought, intake.step inlet b = r at hsteps
  cases hsteps with
  | reads hstep houtcome =>
    rcases houtcome with rfl | rfl
    · rcases FrameReader.weight_lt_of_step hstep with hless | ⟨hsame, hless⟩
      · exact .advances (.left _ _ hless)
      · exact .of_weight hsame hless
    · obtain ⟨rfl, rfl, hneeds, hsilent⟩ := FrameReader.step_eq_waiting hstep
      exact .rests (.inr ⟨_, rfl, hneeds, hsilent⟩)
  | fails | rests => exact .rests (.inl rfl)
  | @brings reader _ _ _ _ hstep hoffers =>
    obtain ⟨hmissing, rfl, rfl⟩ := FrameReader.step_eq_ok hstep
    have hweight : 2 ≤ (reading reader).weight := by
      rw [weight, FrameReader.weight, if_pos hmissing]
      exact Nat.le_add_right _ _
    cases hoffers with
    | queued | dropped => exact .of_weight rfl (Nat.lt_of_lt_of_le Nat.zero_lt_two hweight)
    | blocked => exact .of_weight rfl (Nat.lt_of_lt_of_le Nat.one_lt_two hweight)
    | closed => exact .rests (.inl rfl)
  | retries hoffers =>
    cases hoffers with
    | queued | dropped => exact .of_weight rfl (Nat.lt_succ_self _)
    | blocked _ hfull => exact .blocked hfull
    | closed => exact .rests (.inl rfl)

namespace Run

variable {run : Run}

lemma laneCapacity_advance (run : Run) (event : Event) :
    (run.advance event).mailbox.laneCapacity = run.mailbox.laneCapacity := by
  cases event with
  | arrive chunk =>
    rw [advance]
    split <;> rfl
  | finish | close => rfl
  | step => exact (mailbox_step run.intake run.inlet run.mailbox).1
  | ring => exact (run.mailbox.push_fst_spec .timer).1
  | receive => exact run.mailbox.receive_fst_spec.1

/-- A lane has room for one message at least. -/
lemma laneCapacity_after (capacity : Nat) (events : List Event) :
    0 < (after capacity events).mailbox.laneCapacity :=
  List.foldlRecOn events advance
    (motive := fun run => 0 < run.mailbox.laneCapacity) (Nat.le_max_right capacity 1)
    fun run h event _ => (laneCapacity_advance run event).symm ▸ h

/-- The session takes something out of the mailbox, and the intake makes a step. -/
def round (run : Run) : Run := (run.advance .receive).advance .step

/-- How far an intake is from rest: by the bytes that wait, what it can do without them, and what
stands in its way. -/
def distance (run : Run) : (Nat ×ₗ Nat) ×ₗ Nat :=
  toLex (toLex (run.inlet.arrived.length, run.intake.weight), run.mailbox.queued.length)

/-- A lane that is full after something was taken out was not emptied before. -/
lemma round_progress (hroom : 0 < run.mailbox.laneCapacity) :
    run.round.AtRest ∨ run.round.distance < run.distance := by
  have hcapacity : run.mailbox.receive.1.laneCapacity = run.mailbox.laneCapacity :=
    laneCapacity_advance run .receive
  have hqueued : run.mailbox.receive.1.queued.length = run.mailbox.queued.length - 1 := by
    rw [Mailbox.queued_receive, List.length_tail]
  have hprogress := progress_step run.intake run.inlet run.mailbox.receive.1
  have hround : run.round =
      { (run.advance .receive).advance .step with
        intake := (run.intake.step run.inlet run.mailbox.receive.1).1
        inlet := (run.intake.step run.inlet run.mailbox.receive.1).2.1
        mailbox := (run.intake.step run.inlet run.mailbox.receive.1).2.2 } := rfl
  rw [hround, distance, distance]
  generalize run.intake.step run.inlet run.mailbox.receive.1 = r at hprogress ⊢
  cases hprogress with
  | rests hrest => exact .inl hrest
  | advances hless => exact .inr (.left _ _ hless)
  | blocked hfull =>
    refine .inr (.right _ ?_)
    dsimp only
    omega

/-- The number of rounds is not bounded in advance: it depends on what waits. -/
lemma exists_rounds_atRest (hroom : 0 < run.mailbox.laneCapacity) :
    ∃ n, ((List.replicate n [.receive, .step]).flatten.foldl advance run).AtRest := by
  induction hdistance : run.distance using WellFoundedLT.induction generalizing run with
  | _ d ih =>
    rcases round_progress hroom with hrest | hless
    · exact ⟨1, hrest⟩
    · have hroom' : 0 < run.round.mailbox.laneCapacity := by
        rwa [round, laneCapacity_advance, laneCapacity_advance]
      obtain ⟨n, hrest⟩ := ih _ (hdistance ▸ hless) hroom' rfl
      exact ⟨n + 1, hrest⟩

/-- An intake hands to its mailbox the messages of the longest sequence of frames that leads what
the stream gives, in order: a start of them at any time, and all when it has come to rest and the
mailbox is open.  No message from behind a front that is no frame is handed over, is in the mailbox
or was taken out of it.

What is handed over arrives.  The messages whose push is answered `queued` are, for each lane and in
the same order, those that were taken out of the mailbox followed by those in the lane; dropped is
only what adds nothing to what waits, and only a closed mailbox refuses a message.  And the intake
comes to rest, if the session goes on to empty the mailbox. -/
theorem pushed_longest (capacity : Nat) (events : List Event) :
    let run := after capacity events
    (∃ messages, Longest run.given messages ∧ run.pushed <+: messages ∧
      (run.AtRest → run.mailbox.closed = false → run.pushed = messages)) ∧
    (∀ messages rest, Leads run.stream messages rest → Spoilt rest →
      run.pushed <+: messages ∧
      ∀ m, .message m ∈ run.received ++ run.mailbox.queued → m ∈ messages) ∧
    (∀ p, ofLane p (answered (· == .queued) run.attempts) =
      (run.received.filter (·.isHighPriority == p) ++ run.mailbox.contents p).filterMap
        MailboxItem.message?) ∧
    (∀ a ∈ run.attempts,
      (a.result = .dropped → (MailboxItem.message a.message).isRedundant a.waiting = true) ∧
      (a.result = .closed → run.mailbox.closed = true)) ∧
    ∃ n, (after capacity (events ++ (List.replicate n [.receive, .step]).flatten)).AtRest := by
  intro run
  have hsound := sound_after capacity events
  have haccounted := accounted_after capacity events
  refine ⟨?_, fun messages rest hleads hspoilt => ?_, haccounted.conveyed, haccounted.justified, ?_⟩
  · obtain ⟨messages, hlongest⟩ := exists_longest run.given
    obtain ⟨rest, hleads⟩ := hlongest.leads
    obtain ⟨rest', hpushed, hend⟩ := hsound.exists_leads_given
    have hstart := hlongest.longest _ _ hpushed
    refine ⟨messages, hlongest, hstart, fun hrest hopen => ?_⟩
    exact hstart.eq_of_length_le (hpushed.isPrefix hleads (hend hrest hopen)).length_le
  · have hstart := hsound.isPrefix_of_spoilt hleads hspoilt
    exact ⟨hstart, fun m hm => hstart.subset (haccounted.mem_pushed hm)⟩
  · obtain ⟨n, hrest⟩ := exists_rounds_atRest (laneCapacity_after capacity events)
    refine ⟨n, ?_⟩
    rw [after, List.foldl_append]
    exact hrest

/-- Three frames with a compressed header before the last arrive in two pieces, and the second of
them finds its lane full until the first is taken out. -/
def spoiltEvents : List Event :=
  .arrive [0x00, 0x01] :: .step ::
    .arrive [0x00, 0x00, 0x01, 0x00, 0x01, 0x01, 0x00, 0x00, 0x25, 0x00] ::
      (List.replicate 6 .step ++ .receive :: List.replicate 4 .step)

/-- What stands before the compressed header is handed over and arrives, and nothing from behind. -/
theorem pushed_longest_of_compressed :
    let run := after 1 spoiltEvents
    run.AtRest ∧ run.mailbox.closed = false ∧ Longest run.given run.pushed ∧
      run.pushed = [.verack, .verack] ∧
      run.attempts.map Attempt.result = [.queued, .blocked, .queued] ∧
      run.received = [.message .verack] ∧ run.mailbox.queued = [.message .verack] ∧
      ofLane true (answered (· == .queued) run.attempts) = [.verack, .verack] ∧
      Spoilt [0x01, 0x01, 0x00, 0x00, 0x25, 0x00] ∧
      ∀ m, .message m ∈ run.received ++ run.mailbox.queued → m ∈ [Message.verack, .verack] := by
  intro run
  obtain ⟨⟨messages, hlongest, -, hall⟩, hspoilt, hconveyed, -, -⟩ := pushed_longest 1 spoiltEvents
  have hrest : run.AtRest := .inl (by decide +kernel)
  have hopen : run.mailbox.closed = false := by decide +kernel
  have hleads : Leads run.stream [.verack, .verack] [0x01, 0x01, 0x00, 0x00, 0x25, 0x00] := by
    have hstream : run.stream =
        [0x00, 0x01, 0x00] ++ ([0x00, 0x01, 0x00] ++ [0x01, 0x01, 0x00, 0x00, 0x25, 0x00]) := by
      decide +kernel
    rw [hstream]
    exact .cons (by decide +kernel) (.cons (by decide +kernel) (.nil _))
  have hfront : Spoilt [0x01, 0x01, 0x00, 0x00, 0x25, 0x00] := .compressed rfl
  refine ⟨hrest, hopen, ?_, by decide +kernel, by decide +kernel, by decide +kernel,
    by decide +kernel, ?_, hfront, (hspoilt _ _ hleads hfront).2⟩
  · rw [hall hrest hopen]
    exact hlongest
  · rw [hconveyed true]
    decide +kernel

end Run

end Intake

end PeerNet
