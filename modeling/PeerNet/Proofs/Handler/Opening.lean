import PeerNet.Proofs.Handler.Reordering
import PeerNet.Proofs.Session.Connection

/-!
# How a peer opens

Before a peer has introduced itself the handler lets nothing pass, and the first message that it
handles decides: a version is accepted, and anything else but a farewell ends the connection.  Which
message is the first, however, is up to the mailbox.  It is the first control message of those that
were pushed by then, and only without one the message with which the peer has opened
(`Reception.foremost`).  So a peer that does not open with its version gets by if the version is
right behind and overtakes what the peer has opened with, and it is sent away in all other cases
(`Reception.first_message_decides`).

Until a message is handled, the mailbox and the list of all that was pushed agree on which message
is the first (`Reception.SameFront`), since the only messages that a mailbox drops are requests that
it holds already.
-/

namespace PeerNet

/-- Whether a message is delivered before all that are not. -/
def Message.isControl (m : Message) : Bool := (MailboxItem.message m).isHighPriority

/-- A request of which one is enough is no control message. -/
lemma Message.isControl_of_deduplicated {m : Message}
    (hm : m.command ∈ MailboxItem.deduplicatedCommands) : m.isControl = false := by
  have hlow : ∀ c ∈ MailboxItem.deduplicatedCommands,
      MailboxItem.highPriorityCommands.contains c = false := by decide
  exact hlow m.command hm

/-- A farewell is not control traffic. -/
lemma Message.command_ne_disconnect {m : Message} (hm : m.isControl = true) :
    m.command ≠ .disconnect := by
  intro hcommand
  change MailboxItem.highPriorityCommands.contains m.command = true at hm
  rw [hcommand] at hm
  exact absurd hm (by decide)

namespace Mailbox

variable {b b' : Mailbox} {items : List MailboxItem} {item : MailboxItem}

/-- An item of low priority is delivered when there is no other. -/
lemma Holds.low_of_receive (h : b.Holds items) (hreceive : b.receive = (b', some item))
    (hlow : item.isHighPriority = false) : ∀ i ∈ items, i.isHighPriority = false := by
  obtain ⟨p, htaken, -, hempty, -, -⟩ := receive_spec hreceive
  have hitem : item ∈ items.filter (·.isHighPriority == p) := by
    rw [← h p, htaken]
    exact List.mem_cons_self
  have hp : p = false := by
    rw [← eq_of_beq (List.mem_filter.mp hitem).2]
    exact hlow
  have hnone : items.filter (·.isHighPriority == true) = [] := by
    rw [← h true]
    exact hempty hp
  intro i hi
  have hne := List.filter_eq_nil_iff.mp hnone i hi
  rwa [beq_true, Bool.not_eq_true] at hne

/-- A mailbox that drops a message holds one. -/
lemma Holds.messages_ne_nil_of_dropped (h : b.Holds items) {m : Message}
    (hdropped : (b.push (.message m)).2 = .dropped) :
    items.filterMap MailboxItem.message? ≠ [] := by
  have hpush := pushes_push b (.message m)
  generalize (b.push (.message m)).1 = b', (b.push (.message m)).2 = result at hpush hdropped
  subst hdropped
  cases hpush with
  | dropped hopen hredundant =>
    rw [MailboxItem.isRedundant, MailboxItem.command?, Option.any_some, Bool.and_eq_true,
      List.any_eq_true] at hredundant
    obtain ⟨-, i, hi, hcommand⟩ := hredundant
    have hmem : i ∈ items := by
      rw [queued_perm_contents, h true, h false] at hi
      rcases List.mem_append.mp hi with hi | hi
      · exact (List.mem_filter.mp hi).1
      · exact (List.mem_filter.mp hi).1
    cases i with
    | timer => exact Bool.noConfusion hcommand
    | message m' => exact List.ne_nil_of_mem (List.mem_filterMap.mpr ⟨_, hmem, rfl⟩)

end Mailbox

namespace Reception

/-! ## The message that is handled first -/

/-- The message of those that were pushed that is handled first: the first control message, or the
first message of all if there is none. -/
def foremost (pushed : List Message) : Option Message :=
  (pushed.find? Message.isControl).or pushed.head?

/-- What is handled first is a control message, or it was pushed first. -/
lemma isControl_or_head_of_foremost {pushed : List Message} {m : Message}
    (h : foremost pushed = some m) : m.isControl = true ∨ pushed.head? = some m := by
  rcases Option.or_eq_some_iff.mp h with hcontrol | ⟨-, hhead⟩
  · exact .inl (List.find?_some hcontrol)
  · exact .inr hhead

/-- What is handled first was pushed. -/
lemma mem_of_foremost {pushed : List Message} {m : Message} (h : foremost pushed = some m) :
    m ∈ pushed := by
  rcases Option.or_eq_some_iff.mp h with hcontrol | ⟨-, hhead⟩
  · exact List.mem_of_find?_eq_some hcontrol
  · exact List.mem_of_head? hhead

/-- Nothing overtakes control traffic that is pushed first. -/
lemma foremost_of_isControl {opener : Message} (h : opener.isControl = true) (more : List Message) :
    foremost (opener :: more) = some opener := by
  rw [foremost, List.find?_cons_of_pos h]
  rfl

/-- Two lists of messages that agree on what is handled first, whatever is added to both. -/
structure SameFront (messages pushed : List Message) : Prop where
  control_eq : messages.find? Message.isControl = pushed.find? Message.isControl
  head_eq : messages.head? = pushed.head?

variable {messages pushed : List Message} {m : Message}

/-- Lists that agree on what is handled first do so as they are. -/
lemma SameFront.foremost_eq (h : SameFront messages pushed) :
    foremost messages = foremost pushed := by
  rw [foremost, foremost, h.control_eq, h.head_eq]

/-- They still agree when both get the same messages more. -/
lemma SameFront.append (h : SameFront messages pushed) (more : List Message) :
    SameFront (messages ++ more) (pushed ++ more) := by
  constructor
  · rw [List.find?_append, List.find?_append, h.control_eq]
  · rw [List.head?_append, List.head?_append, h.head_eq]

/-- A message that is not control traffic may be missing behind others. -/
lemma SameFront.drop (h : SameFront messages pushed) (hnonempty : messages ≠ [])
    (hlow : m.isControl = false) : SameFront messages (pushed ++ [m]) := by
  obtain ⟨first, rest, rfl⟩ := List.exists_cons_of_ne_nil hnonempty
  constructor
  · have hnone : [m].find? Message.isControl = none := by simp [hlow]
    rw [List.find?_append, ← h.control_eq, hnone, Option.or_none]
  · rw [List.head?_append, ← h.head_eq]
    rfl

/-! ## One event -/

/-- The item that is taken with an event, and what becomes of it. -/
def turn? (r : Reception) : Event → Option (MailboxItem × Handler.Handled)
  | .receive ledger moment =>
    r.mailbox.receive.2.map fun item => (item, r.handler.handle ledger moment item)
  | .push | .ring | .relay _ _ => none

variable {r : Reception} {event : Event} {handled : Handler.Handled}

/-- Items are taken when the handler is to receive one. -/
lemma receive_of_turn? {t : MailboxItem × Handler.Handled} (h : r.turn? event = some t) :
    ∃ ledger moment, event = .receive ledger moment := by
  cases event with
  | receive ledger moment => exact ⟨ledger, moment, rfl⟩
  | push | ring | relay => exact Option.noConfusion rfl (heq_of_eq h)

/-- No message was handled yet, and of those that were pushed the mailbox holds what counts. -/
def Opening (r : Reception) (messages : List Message) : Prop :=
  r.handler.state = .awaitingVersion ∧
    ∃ items pushed, r.mailbox.Holds items ∧ pushed ++ r.unread = messages ∧
      SameFront (items.filterMap MailboxItem.message?) pushed

/-- A push leaves the mailbox with what counts among all that was pushed. -/
lemma Opening.push (h : r.Opening messages) : (r.advance .push).Opening messages := by
  obtain ⟨hstate, items, pushed, hholds, hmessages, hfront⟩ := id h
  rw [advance]
  split
  · exact h
  · next m rest hunread =>
    have hpush := hholds.push (.message m)
    rw [hunread, List.append_cons] at hmessages
    split
    · next mailbox hqueued =>
      rw [hqueued, if_pos rfl] at hpush
      refine ⟨hstate, _, _, hpush, hmessages, ?_⟩
      rw [List.filterMap_append]
      exact hfront.append [m]
    · next mailbox hdropped =>
      have hresult := congrArg Prod.snd hdropped
      have hlow := Message.isControl_of_deduplicated (Mailbox.command_of_dropped hresult)
      rw [hdropped, if_neg PushResult.noConfusion, List.append_nil] at hpush
      exact ⟨hstate, items, _, hpush, hmessages,
        hfront.drop (hholds.messages_ne_nil_of_dropped hresult) hlow⟩
    · exact h
    · exact h

/-- What is no message changes nothing in the order of the messages. -/
lemma Opening.receive (h : r.Opening messages) {ledger : Ledger} {moment : Moment}
    (hturn : ∀ t ∈ r.turn? (.receive ledger moment), t.1 = .timer) :
    (r.advance (.receive ledger moment)).Opening messages := by
  obtain ⟨hstate, items, pushed, hholds, hmessages, hfront⟩ := id h
  rw [advance]
  split
  · next mailbox item hreceive =>
    obtain rfl : item = .timer := by
      refine hturn (item, r.handler.handle ledger moment item) ?_
      rw [turn?, hreceive]
      rfl
    obtain ⟨before, after, rfl, hholds', -, -⟩ := hholds.of_receive hreceive
    refine ⟨hstate, _, pushed, hholds', hmessages, ?_⟩
    rw [List.filterMap_append] at hfront ⊢
    exact hfront
  · exact h

/-- An event that brings at most the timer to be handled leaves the first message to come. -/
lemma Opening.advance (h : r.Opening messages) (hturn : ∀ t ∈ r.turn? event, t.1 = .timer) :
    (r.advance event).Opening messages := by
  cases event with
  | push => exact h.push
  | receive ledger moment => exact h.receive hturn
  | ring =>
    obtain ⟨hstate, items, pushed, hholds, hmessages, hfront⟩ := h
    refine ⟨hstate, _, pushed, hholds.push .timer, hmessages, ?_⟩
    rw [List.filterMap_append]
    split
    · exact (List.append_nil _).symm ▸ hfront
    · exact (List.append_nil _).symm ▸ hfront
  | relay kind hash =>
    obtain ⟨hstate, hrest⟩ := h
    obtain ⟨⟨known, hknown⟩, -⟩ := Handler.relay_spec r.handler kind hash
    rw [Reception.advance, hknown]
    exact ⟨hstate, hrest⟩

/-- Items of low priority are no control messages. -/
lemma find?_eq_none_of_low {items : List MailboxItem}
    (hlow : ∀ i ∈ items, i.isHighPriority = false) :
    (items.filterMap MailboxItem.message?).find? Message.isControl = none := by
  rw [List.find?_eq_none]
  intro m hm
  obtain ⟨i, hi, hmessage⟩ := List.mem_filterMap.mp hm
  cases i with
  | timer => exact Option.noConfusion rfl (heq_of_eq hmessage)
  | message m' =>
    obtain rfl := Option.some.inj hmessage
    exact Bool.eq_false_iff.mp (hlow _ hi)

/-- The first message that is handled is the foremost of those that were pushed. -/
lemma Opening.of_message (h : r.Opening messages)
    (hturn : r.turn? event = some (.message m, handled)) :
    (∃ ledger moment, handled = r.handler.handleMessage ledger moment m) ∧
      ∃ pushed, pushed ++ r.unread = messages ∧ foremost pushed = some m := by
  obtain ⟨-, items, pushed, hholds, hmessages, hfront⟩ := h
  obtain ⟨ledger, moment, rfl⟩ := receive_of_turn? hturn
  obtain ⟨item, hreceive, heq⟩ := Option.map_eq_some_iff.mp hturn
  obtain ⟨rfl, rfl⟩ := Prod.mk.inj heq
  have hreceive : r.mailbox.receive = (r.mailbox.receive.1, some (.message m)) :=
    Prod.ext rfl hreceive
  obtain ⟨before, after, rfl, -, hlow, hfirst⟩ := hholds.of_receive hreceive
  refine ⟨⟨ledger, moment, rfl⟩, pushed, hmessages, ?_⟩
  rw [← hfront.foremost_eq, foremost, List.filterMap_append, List.filterMap_cons]
  cases hcontrol : m.isControl with
  | true =>
    -- Of the messages that arrived earlier none is control traffic.
    have hnone := find?_eq_none_of_low hlow
    rw [List.find?_append, hnone, Option.none_or]
    dsimp only [MailboxItem.message?]
    rw [List.find?_cons_of_pos hcontrol]
    rfl
  | false =>
    obtain rfl := hfirst hcontrol
    have hnone := find?_eq_none_of_low (hholds.low_of_receive hreceive hcontrol)
    rw [List.filterMap_append, List.filterMap_cons] at hnone
    rw [hnone]
    rfl

/-- The handler after a turn is the one that the turn left behind. -/
lemma handler_of_turn? {item : MailboxItem} (hturn : r.turn? event = some (item, handled)) :
    (r.advance event).handler = handled.handler := by
  obtain ⟨ledger, moment, rfl⟩ := receive_of_turn? hturn
  obtain ⟨item, hreceive, heq⟩ := Option.map_eq_some_iff.mp hturn
  obtain ⟨rfl, rfl⟩ := Prod.mk.inj heq
  have hreceive : r.mailbox.receive = (r.mailbox.receive.1, some item) := Prod.ext rfl hreceive
  rw [advance, hreceive]

/-- The timer has nothing done. -/
lemma events_of_timer (h : r.turn? event = some (.timer, handled)) : handled.events = [] := by
  obtain ⟨ledger, moment, rfl⟩ := receive_of_turn? h
  obtain ⟨item, -, heq⟩ := Option.map_eq_some_iff.mp h
  obtain ⟨rfl, rfl⟩ := Prod.mk.inj heq
  rfl

/-- A handler that has stopped does nothing with any item, and stays so. -/
lemma advance_of_stopped (hstate : r.handler.state = .stopped) (event : Event) :
    (r.advance event).handler.state = .stopped ∧ ∀ t ∈ r.turn? event, t.2.events = [] := by
  cases event with
  | receive ledger moment =>
    cases hreceive : r.mailbox.receive.2 with
    | none =>
      have hwaits : r.mailbox.receive = (r.mailbox.receive.1, none) := Prod.ext rfl hreceive
      rw [advance, turn?, hwaits]
      exact ⟨hstate, fun t ht => Option.noConfusion rfl (heq_of_eq ht)⟩
    | some item =>
      have hturn : r.turn? (.receive ledger moment) =
          some (item, r.handler.handle ledger moment item) := by
        rw [turn?, hreceive]
        rfl
      have hidle : (r.handler.handle ledger moment item).handler.state = .stopped ∧
          (r.handler.handle ledger moment item).events = [] := by
        cases item with
        | timer => exact ⟨hstate, rfl⟩
        | message m =>
          rw [Handler.handle, Handler.handleMessage_of_stopped hstate]
          exact ⟨hstate, rfl⟩
      rw [handler_of_turn? hturn, hturn]
      refine ⟨hidle.1, fun t ht => ?_⟩
      obtain rfl := Option.some.inj ht
      exact hidle.2
  | push =>
    refine ⟨?_, fun t ht => Option.noConfusion rfl (heq_of_eq ht)⟩
    rw [advance]
    split
    · exact hstate
    · split <;> exact hstate
  | ring => exact ⟨hstate, fun t ht => Option.noConfusion rfl (heq_of_eq ht)⟩
  | relay kind hash =>
    obtain ⟨⟨known, hknown⟩, -⟩ := Handler.relay_spec r.handler kind hash
    refine ⟨?_, fun t ht => Option.noConfusion rfl (heq_of_eq ht)⟩
    rw [advance, hknown]
    exact hstate

/-! ## Events one after the other -/

/-- The items that are taken over more events, each with what becomes of it. -/
def turnsOver (r : Reception) : List Event → List (MailboxItem × Handler.Handled)
  | [] => []
  | event :: rest => (r.turn? event).toList ++ (r.advance event).turnsOver rest

variable {events : List Event}

/-- A turn is that of the first event, or one of those after it. -/
lemma mem_turnsOver_cons {t : MailboxItem × Handler.Handled} {rest : List Event} :
    t ∈ r.turnsOver (event :: rest) ↔
      t ∈ r.turn? event ∨ t ∈ (r.advance event).turnsOver rest := by
  rw [turnsOver, List.mem_append, Option.mem_toList]
  rfl

lemma turnsOver_append (r : Reception) (earlier later : List Event) :
    r.turnsOver (earlier ++ later) =
      r.turnsOver earlier ++ (earlier.foldl advance r).turnsOver later := by
  induction earlier generalizing r with
  | nil => rfl
  | cons event earlier ih =>
    rw [List.cons_append, turnsOver, turnsOver, ih, List.append_assoc, List.foldl_cons]

/-- A handler that has stopped brings nothing any more. -/
lemma turnsOver_of_stopped (hstate : r.handler.state = .stopped) (events : List Event) :
    (events.foldl advance r).handler.state = .stopped ∧
      ∀ t ∈ r.turnsOver events, t.2.events = [] := by
  induction events generalizing r with
  | nil => exact ⟨hstate, List.forall_mem_nil _⟩
  | cons event rest ih =>
    obtain ⟨hstate', hidle⟩ := advance_of_stopped hstate event
    obtain ⟨hend, hrest⟩ := ih hstate'
    refine ⟨hend, fun t ht => ?_⟩
    exact (mem_turnsOver_cons.mp ht).elim (hidle t) (hrest t)

/-- Where only the timer is handled, nothing is done. -/
lemma events_of_timers (hturns : ∀ t ∈ r.turnsOver events, t.1 = .timer) :
    ∀ t ∈ r.turnsOver events, t.2.events = [] := by
  induction events generalizing r with
  | nil => exact List.forall_mem_nil _
  | cons event rest ih =>
    intro t ht
    have htimer := hturns t ht
    rcases mem_turnsOver_cons.mp ht with hturn | hrest
    · obtain ⟨item, handled⟩ := t
      obtain rfl : item = .timer := htimer
      exact events_of_timer hturn
    · exact ih (fun t' ht' => hturns t' (mem_turnsOver_cons.mpr (.inr ht'))) t hrest

/-- As long as only the timer is handled the peer has not opened. -/
lemma Opening.foldl (h : r.Opening messages) (hturns : ∀ t ∈ r.turnsOver events, t.1 = .timer) :
    (events.foldl Reception.advance r).Opening messages := by
  induction events generalizing r with
  | nil => exact h
  | cons event rest ih =>
    refine ih (h.advance fun t ht => ?_) fun t ht => ?_
    · exact hturns t (mem_turnsOver_cons.mpr (.inl ht))
    · exact hturns t (mem_turnsOver_cons.mpr (.inr ht))

/-- Either no message is handled, or there is a first one. -/
lemma exists_first_message (r : Reception) (events : List Event) :
    (∀ t ∈ r.turnsOver events, t.1 = .timer) ∨
      ∃ earlier event later m handled, events = earlier ++ event :: later ∧
        (∀ t ∈ r.turnsOver earlier, t.1 = .timer) ∧
        (earlier.foldl advance r).turn? event = some (.message m, handled) := by
  induction events generalizing r with
  | nil => exact .inl (List.forall_mem_nil _)
  | cons event rest ih =>
    by_cases hmessage : ∃ m handled, r.turn? event = some (.message m, handled)
    · obtain ⟨m, handled, hturn⟩ := hmessage
      exact .inr ⟨[], event, rest, m, handled, rfl, List.forall_mem_nil _, hturn⟩
    · have htimer : ∀ t ∈ r.turn? event, t.1 = .timer := by
        rintro ⟨item, handled⟩ ht
        cases item with
        | timer => rfl
        | message m => exact absurd ⟨m, handled, ht⟩ hmessage
      rcases ih (r.advance event) with
        hnone | ⟨earlier, event', later, m, handled, rfl, hbefore, hturn⟩
      · exact .inl fun t ht => (mem_turnsOver_cons.mp ht).elim (htimer t) (hnone t)
      · refine .inr ⟨event :: earlier, event', later, m, handled, rfl, fun t ht => ?_, hturn⟩
        exact (mem_turnsOver_cons.mp ht).elim (htimer t) (hbefore t)

/-- A new handler whose peer sends the given messages. -/
def start (capacity : Nat) (ledger : Ledger) (pendingTimeout : Nat) (messages : List Message) :
    Reception :=
  ⟨.ofCapacity capacity, .start ledger pendingTimeout, messages, []⟩

/-- At the start, nothing is handled and everything is to be pushed. -/
lemma opening_start (capacity : Nat) (ledger : Ledger) (pendingTimeout : Nat)
    (messages : List Message) : (start capacity ledger pendingTimeout messages).Opening messages :=
  ⟨rfl, [], [], Mailbox.holds_ofCapacity capacity, rfl, rfl, rfl⟩

/-- What a message comes to that is handled before the peer has introduced itself. -/
lemma handleMessage_of_awaitingVersion {h : Handler} (hstate : h.state = .awaitingVersion)
    (ledger : Ledger) (moment : Moment) (hdisconnect : m.command ≠ .disconnect) :
    (m.command ≠ .version →
      h.handleMessage ledger moment m = .violation h.stop ⟨.awaitingVersion, m.command⟩) ∧
    ∀ v, m = .version v → (h.handleMessage ledger moment m).events = [.versionReceived v] := by
  have hhandles := h.handles_handleMessage ledger moment m
  generalize h.handleMessage ledger moment m = handled at hhandles
  cases hhandles with
  | ignored m hstopped => exact HandshakeState.noConfusion (hstate.symm.trans hstopped)
  | parted d => exact absurd rfl hdisconnect
  | introduced v =>
    refine ⟨fun hversion => absurd rfl hversion, fun v' hv => ?_⟩
    rw [Message.version.inj hv]
    rfl
  | acknowledged hverack => exact HandshakeState.noConfusion (hstate.symm.trans hverack)
  | dispatched m hready => exact HandshakeState.noConfusion (hstate.symm.trans hready)
  | violated m hgate =>
    refine ⟨fun _ => by rw [hstate], ?_⟩
    rintro v rfl
    rw [hstate] at hgate
    exact GateDecision.noConfusion hgate

/-- A peer opens with a message that is neither its version nor a farewell.  However the pushes, the
timer, announcements and the handling of items are interleaved: as long as no message is handled the
handler waits for a version, and the first message that is handled is the foremost of those that
were pushed by then.  If that is not a version, it is a violation, which stops the handler at once,
and nothing ever comes of any item.  If it is one, it has overtaken what the peer has opened with,
and it is accepted. -/
theorem first_message_decides (capacity : Nat) (ledger : Ledger) (pendingTimeout : Nat)
    (opener : Message) (rest : List Message) (hversion : opener.command ≠ .version)
    (hdisconnect : opener.command ≠ .disconnect) (events : List Event) :
    let r := start capacity ledger pendingTimeout (opener :: rest)
    let turns := r.turnsOver events
    ((∀ t ∈ turns, t.1 = .timer ∧ t.2.events = []) ∧
      (events.foldl advance r).handler.state = .awaitingVersion) ∨
    ∃ earlier event later pushed m handled,
      events = earlier ++ event :: later ∧ (∀ t ∈ r.turnsOver earlier, t.1 = .timer) ∧
      (earlier.foldl advance r).turn? event = some (.message m, handled) ∧
      pushed ++ (earlier.foldl advance r).unread = opener :: rest ∧ foremost pushed = some m ∧
      (m.command ≠ .version →
        (∃ h, handled = .violation h ⟨.awaitingVersion, m.command⟩ ∧ h.state = .stopped) ∧
        (∀ t ∈ turns, t.2.events = []) ∧ (events.foldl advance r).handler.state = .stopped) ∧
      ∀ v, m = .version v → opener.isControl = false ∧ handled.events = [.versionReceived v] := by
  intro r turns
  have hopening := opening_start capacity ledger pendingTimeout (opener :: rest)
  rcases r.exists_first_message events with
    hnone | ⟨earlier, event, later, m, handled, rfl, hbefore, hturn⟩
  · refine .inl ⟨fun t ht => ⟨hnone t ht, events_of_timers hnone t ht⟩, ?_⟩
    exact (hopening.foldl hnone).1
  · have hwaiting := hopening.foldl hbefore
    obtain ⟨⟨ledger', moment, hhandled⟩, pushed, hmessages, hforemost⟩ := hwaiting.of_message hturn
    obtain ⟨more, rfl⟩ : ∃ more, pushed = opener :: more := by
      obtain ⟨first, more, rfl⟩ :=
        List.exists_cons_of_ne_nil (List.ne_nil_of_mem (mem_of_foremost hforemost))
      rw [(List.cons_eq_cons.mp hmessages).1]
      exact ⟨more, rfl⟩
    have hstays : m.command ≠ .disconnect := by
      rcases isControl_or_head_of_foremost hforemost with hcontrol | hhead
      · exact Message.command_ne_disconnect hcontrol
      · rw [← Option.some.inj hhead]
        exact hdisconnect
    have hovertaken : m.command = .version → opener.isControl = false := by
      intro hcommand
      refine Bool.eq_false_iff.mpr fun hcontrol => hversion ?_
      rw [foremost_of_isControl hcontrol] at hforemost
      rw [Option.some.inj hforemost]
      exact hcommand
    obtain ⟨hviolation, haccepted⟩ :=
      handleMessage_of_awaitingVersion hwaiting.1 ledger' moment hstays
    rw [← hhandled] at hviolation haccepted
    refine .inr ⟨earlier, event, later, _, m, handled, rfl, hbefore, hturn, hmessages, hforemost,
      fun hcommand => ?_, fun v hv => ⟨hovertaken (by rw [hv]; rfl), haccepted v hv⟩⟩
    have hstopped := handler_of_turn? hturn
    rw [hviolation hcommand] at hstopped
    obtain ⟨hend, hidle⟩ := turnsOver_of_stopped (congrArg Handler.state hstopped) later
    refine ⟨⟨_, hviolation hcommand, rfl⟩, fun t ht => ?_, ?_⟩
    · change t ∈ r.turnsOver (earlier ++ event :: later) at ht
      rw [turnsOver_append, List.mem_append, mem_turnsOver_cons] at ht
      rcases ht with ht | ht | ht
      · exact events_of_timers hbefore t ht
      · rw [hturn] at ht
        rw [← Option.some.inj ht, hviolation hcommand]
        rfl
      · exact hidle t ht
    · rw [List.foldl_append, List.foldl_cons]
      exact hend

/-- An acknowledgement overtakes the ping with which the peer has opened, and is a violation. -/
theorem first_message_decides_of_verack :
    ∃ (ledger : Ledger) (events : List Event),
      let r := start 1 ledger 0 [.ping ⟨1, 2, 3⟩, .verack]
      r.turnsOver events ≠ [] ∧ (∀ t ∈ r.turnsOver events, t.2.events = []) ∧
      (events.foldl advance r).handler.state = .stopped := by
  let ledger : Ledger := MemoryLedger.toLedger ⟨[], none, [], [], [], [], none, 0⟩
  let receive : Event := .receive ledger ⟨0, 0⟩
  let events : List Event := [.push, .ring, .push, receive, receive]
  let r := start 1 ledger 0 [.ping ⟨1, 2, 3⟩, .verack]
  have hsome : r.turnsOver events ≠ [] ∧ ¬ ∀ t ∈ r.turnsOver events, t.1 = .timer := by
    decide +kernel
  refine ⟨ledger, events, hsome.1, ?_⟩
  rcases first_message_decides 1 ledger 0 (.ping ⟨1, 2, 3⟩) [.verack] (by decide) (by decide) events
    with ⟨hnone, -⟩ | ⟨_, _, _, pushed, m, _, -, -, -, hmessages, hforemost, hstopped, -⟩
  · exact absurd (fun t ht => (hnone t ht).1) hsome.2
  · have hm : m ∈ [Message.ping ⟨1, 2, 3⟩, .verack] := by
      rw [← hmessages]
      exact List.mem_append_left _ (mem_of_foremost hforemost)
    have hcommand : m.command ≠ .version := by
      rcases List.mem_pair.mp hm with rfl | rfl
      · exact Command.noConfusion
      · exact Command.noConfusion
    exact (hstopped hcommand).2

/-- A peer that opens with a ping gets by if its version and its acknowledgement are pushed before
the ping is handled. -/
theorem ready_of_overtaking_version :
    ∃ (opener : Message) (rest : List Message) (version : Version) (ledger : Ledger)
      (events : List Event),
      opener.command ≠ .version ∧ opener.command ≠ .disconnect ∧
      ((start 2 ledger 0 (opener :: rest)).turnsOver events).map (·.2.events) =
        [[.versionReceived version], [.ready version]] ∧
      (events.foldl advance (start 2 ledger 0 (opener :: rest))).handler.state = .ready := by
  let ledger : Ledger := MemoryLedger.toLedger ⟨[], none, [], [], [], [], none, 0⟩
  let version : Version := ⟨0, 0, 0, 1, "", []⟩
  let receive : Event := .receive ledger ⟨0, 0⟩
  refine ⟨.ping ⟨1, 2, 3⟩, [.version version, .verack], version, ledger,
    [.push, .push, .push, receive, receive], ?_, ?_, ?_, ?_⟩
  · exact Command.noConfusion
  · exact Command.noConfusion
  · decide +kernel
  · decide +kernel

end Reception

end PeerNet
