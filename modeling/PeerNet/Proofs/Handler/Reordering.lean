import PeerNet.Ledger.Memory
import PeerNet.Proofs.Handler.Grammar
import PeerNet.Proofs.Mailbox.Arrival

/-!
# A well-behaved peer commits no violation

The messages of a peer reach the handler in another order than the peer has sent them in, since the
mailbox delivers control traffic first.  All the same, a peer that sends its version, then its
acknowledgement, and nothing of the kind afterwards, is never accused of a violation.

What keeps it from that is an invariant on the commands that are still to be handled, those in the
mailbox and those to come, in the order in which they were sent (`HandshakeState.Accepts`): handled
in this order they would pass the gate.  The version and its acknowledgement are of high priority,
so whatever overtakes them comes no earlier than they do.
-/

namespace PeerNet

open Mailbox (Overtakes commands)

/-! ## What passes the gate -/

namespace HandshakeState

/-- The state after a command. -/
def next (s : HandshakeState) (c : Command) : HandshakeState :=
  match gate s c with
  | .acceptVersion => .awaitingVerack
  | .acceptVerack => .ready
  | .dispatch | .ignore => s
  | .disconnect | .violation => .stopped

/-- The state after an item, which may have no command. -/
def afterward (s : HandshakeState) (c : Option Command) : HandshakeState := c.elim s s.next

/-- Everyday traffic and a farewell pass the gate of a handler at work. -/
lemma next_ready {c : Command} (hversion : c ≠ .version) (hverack : c ≠ .verack) :
    gate .ready c ≠ .violation ∧ (next .ready c = .ready ∨ next .ready c = .stopped) := by
  cases c <;> first | exact absurd rfl hversion | exact absurd rfl hverack | decide

/-- Commands that pass the gate if they are handled in this order. -/
inductive Accepts : HandshakeState → List Command → Prop
  | nil (s : HandshakeState) : Accepts s []
  | farewell (s : HandshakeState) : Accepts s [.disconnect]
  | version {cs : List Command} (hrest : Accepts .awaitingVerack cs) :
    Accepts .awaitingVersion (.version :: cs)
  | verack {cs : List Command} (hrest : Accepts .ready cs) :
    Accepts .awaitingVerack (.verack :: cs)
  | traffic {cs : List Command} (htraffic : ∀ c ∈ cs, c ≠ .version ∧ c ≠ .verack) :
    Accepts .ready cs
  | stopped (cs : List Command) : Accepts .stopped cs

variable {s : HandshakeState} {c : Command} {before after : List Command}

/-- Nothing overtakes a command of high priority. -/
lemma eq_nil_of_overtakes {d : Command} {rest : List Command} (h : d :: rest = before ++ c :: after)
    (hhigh : d ∈ MailboxItem.highPriorityCommands) (hover : Overtakes c before) :
    before = [] ∧ d = c ∧ rest = after := by
  cases before with
  | nil =>
    obtain ⟨rfl, rfl⟩ := List.cons_eq_cons.mp h
    exact ⟨rfl, rfl, rfl⟩
  | cons b before =>
    obtain ⟨rfl, -⟩ := List.cons_eq_cons.mp h
    exact absurd hhigh (hover.low d List.mem_cons_self)

lemma forall_mem_append_cons {p : Command → Prop} (h : ∀ d ∈ before ++ c :: after, p d) :
    p c ∧ ∀ d ∈ before ++ after, p d := by
  obtain ⟨hbefore, hrest⟩ := List.forall_mem_append.mp h
  obtain ⟨hc, hafter⟩ := List.forall_mem_cons.mp hrest
  exact ⟨hc, List.forall_mem_append.mpr ⟨hbefore, hafter⟩⟩

/-- What may be done with any command that overtakes others may be done with an item as well. -/
lemma take_item {p : HandshakeState → List Command → Prop}
    (htake : ∀ d, p s (before ++ d :: after) → Overtakes d before →
      gate s d ≠ .violation ∧ p (s.next d) (before ++ after)) {item : Option Command}
    (h : p s (before ++ (item.toList ++ after))) (hover : ∀ d, item = some d → Overtakes d before) :
    (∀ d, item = some d → gate s d ≠ .violation) ∧ p (s.afterward item) (before ++ after) := by
  cases item with
  | none => exact ⟨fun d hd => Option.noConfusion rfl (heq_of_eq hd), h⟩
  | some c =>
    obtain ⟨hgate, hnext⟩ := htake c h (hover c rfl)
    refine ⟨fun d hd => ?_, hnext⟩
    rwa [← Option.some.inj hd]

/-- A command may be handled before those that it overtakes. -/
lemma Accepts.take (h : s.Accepts (before ++ c :: after)) (hover : Overtakes c before) :
    gate s c ≠ .violation ∧ (s.next c).Accepts (before ++ after) := by
  generalize hcs : before ++ c :: after = cs at h
  cases h with
  | nil => exact absurd hcs (by simp)
  | farewell =>
    obtain ⟨rfl, rfl, rfl⟩ : before = [] ∧ c = .disconnect ∧ after = [] := by
      simpa [List.append_eq_singleton_iff] using hcs
    cases s <;> exact ⟨by decide, .nil _⟩
  | version hrest =>
    obtain ⟨rfl, rfl, rfl⟩ := eq_nil_of_overtakes hcs.symm (by decide) hover
    exact ⟨by decide, hrest⟩
  | verack hrest =>
    obtain ⟨rfl, rfl, rfl⟩ := eq_nil_of_overtakes hcs.symm (by decide) hover
    exact ⟨by decide, hrest⟩
  | traffic htraffic =>
    subst hcs
    obtain ⟨⟨hversion, hverack⟩, hothers⟩ := forall_mem_append_cons htraffic
    obtain ⟨hgate, hnext | hnext⟩ := next_ready hversion hverack
    · rw [hnext]
      exact ⟨hgate, .traffic hothers⟩
    · rw [hnext]
      exact ⟨hgate, .stopped _⟩
  | stopped => exact ⟨by simp [gate], .stopped _⟩

/-- A request of which one is enough may be left out. -/
lemma Accepts.drop (h : s.Accepts (before ++ c :: after))
    (hc : c ∈ MailboxItem.deduplicatedCommands) : s.Accepts (before ++ after) := by
  generalize hcs : before ++ c :: after = cs at h
  induction h generalizing before with
  | nil => exact absurd hcs (by simp)
  | farewell =>
    obtain ⟨rfl, rfl, rfl⟩ : before = [] ∧ c = .disconnect ∧ after = [] := by
      simpa [List.append_eq_singleton_iff] using hcs
    exact absurd hc (by decide)
  | version hrest ih =>
    cases before with
    | nil =>
      obtain ⟨rfl, -⟩ := List.cons_eq_cons.mp hcs
      exact absurd hc (by decide)
    | cons d before =>
      obtain ⟨rfl, hrest⟩ := List.cons_eq_cons.mp hcs
      exact .version (ih hrest)
  | verack hrest ih =>
    cases before with
    | nil =>
      obtain ⟨rfl, -⟩ := List.cons_eq_cons.mp hcs
      exact absurd hc (by decide)
    | cons d before =>
      obtain ⟨rfl, hrest⟩ := List.cons_eq_cons.mp hcs
      exact .verack (ih hrest)
  | traffic htraffic =>
    subst hcs
    exact .traffic (forall_mem_append_cons htraffic).2
  | stopped => exact .stopped _

end HandshakeState

namespace Handler

/-- The state of a handler follows the gate. -/
lemma state_handleMessage (h : Handler) (ledger : Ledger) (moment : Moment) (m : Message) :
    (h.handleMessage ledger moment m).handler.state = h.state.next m.command := by
  have hhandles := handles_handleMessage h ledger moment m
  generalize h.handleMessage ledger moment m = r at hhandles
  rw [HandshakeState.next]
  cases hhandles with
  | ignored m hstate => rw [gate_eq_ignore_iff.mpr hstate]; rfl
  | parted d hstate =>
    rw [show gate h.state (Message.disconnect d).command = .disconnect from
      gate_eq_disconnect_iff.mpr ⟨hstate, rfl⟩]
    rfl
  | introduced v hstate => rw [hstate]; rfl
  | acknowledged hstate => rw [hstate]; rfl
  | dispatched m hstate hcommand =>
    rw [gate_eq_dispatch_iff.mpr ⟨hstate, hcommand⟩]
    exact (dispatch_spec h ledger moment m).1
  | violated m hgate => rw [hgate]; rfl

/-- What is handled takes the handshake on by its command alone. -/
lemma state_handle (h : Handler) (ledger : Ledger) (moment : Moment) (i : MailboxItem) :
    (h.handle ledger moment i).handler.state = h.state.afterward i.command? := by
  cases i with
  | timer => rfl
  | message m => exact h.state_handleMessage ledger moment m

/-- An item that passes the gate is no violation. -/
lemma violation?_handle {h : Handler} {i : MailboxItem}
    (hgate : ∀ c, i.command? = some c → gate h.state c ≠ .violation) (ledger : Ledger)
    (moment : Moment) : (h.handle ledger moment i).violation? = none := by
  refine (obeys h (.handle ledger moment i)).violation_eq.trans ?_
  cases i with
  | timer => rfl
  | message m => exact objection?_of_gate_ne (hgate m.command rfl) ledger moment

end Handler

/-! ## A peer and a handler -/

/-- A handler with its mailbox, and with the messages of the peer that are still to be pushed. -/
structure Reception where
  mailbox : Mailbox
  handler : Handler
  /-- The messages to come, the next one first. -/
  unread : List Message
  /-- All violations so far. -/
  violations : List ProtocolViolation

namespace Reception

/-- What can happen at a mailbox. -/
inductive Event
  /-- The next message is pushed.  If it finds no room the push is tried again, and until it is over
  no other message is pushed. -/
  | push
  | ring
  | relay (kind : InventoryKind) (hash : Hash)
  /-- The next item is taken and handled. -/
  | receive (ledger : Ledger) (moment : Moment)

/-- One event more. -/
def advance (r : Reception) : Event → Reception
  | .push =>
    match r.unread with
    | [] => r
    | m :: rest =>
      match r.mailbox.push (.message m) with
      | (mailbox, .queued) | (mailbox, .dropped) => { r with mailbox, unread := rest }
      | (_, .blocked) | (_, .closed) => r
  | .ring => { r with mailbox := (r.mailbox.push .timer).1 }
  | .relay kind hash => { r with handler := (r.handler.relay kind hash).1 }
  | .receive ledger moment =>
    match r.mailbox.receive with
    | (mailbox, some item) =>
      let handled := r.handler.handle ledger moment item
      { r with
        mailbox, handler := handled.handler
        violations := r.violations ++ handled.violation?.toList }
    | (_, none) => r

/-- What events lead to at a new handler whose peer sends the given messages. -/
def after (capacity : Nat) (ledger : Ledger) (pendingTimeout : Nat) (messages : List Message)
    (events : List Event) : Reception :=
  events.foldl advance ⟨.ofCapacity capacity, .start ledger pendingTimeout, messages, []⟩

/-- A peer that sends its version, its acknowledgement and then nothing of the kind any more; it may
fall silent at any time, or say farewell. -/
def WellBehaved (messages : List Message) : Prop :=
  ∃ v traffic, (∀ m ∈ traffic, m.command ≠ .version ∧ m.command ≠ .verack) ∧
    ∃ said, said <+: .version v :: .verack :: traffic ∧
      (messages = said ∨ ∃ d, messages = said ++ [.disconnect d])

/-- What a well-behaved peer sends passes the gate in this order. -/
lemma WellBehaved.accepts {messages : List Message} (h : WellBehaved messages) :
    HandshakeState.awaitingVersion.Accepts (messages.map Message.command) := by
  obtain ⟨v, traffic, htraffic, said, hsaid, hmessages⟩ := h
  obtain ⟨farewell, rfl, hend⟩ : ∃ farewell, messages = said ++ farewell ∧
      (farewell = [] ∨ ∃ d, farewell = [.disconnect d]) := by
    rcases hmessages with rfl | ⟨d, rfl⟩
    · exact ⟨[], (List.append_nil _).symm, .inl rfl⟩
    · exact ⟨_, rfl, .inr ⟨d, rfl⟩⟩
  have hfarewell : ∀ s : HandshakeState, s.Accepts (farewell.map Message.command) := by
    intro s
    rcases hend with rfl | ⟨d, rfl⟩
    · exact .nil s
    · exact .farewell s
  rw [List.map_append]
  -- The peer falls silent at once, after its version, or later.
  rcases said with _ | ⟨m, _ | ⟨m', said⟩⟩
  · exact hfarewell _
  · obtain ⟨rfl, -⟩ := List.cons_prefix_cons.mp hsaid
    exact .version (hfarewell _)
  · obtain ⟨rfl, hrest⟩ := List.cons_prefix_cons.mp hsaid
    obtain ⟨rfl, hprefix⟩ := List.cons_prefix_cons.mp hrest
    refine .version (.verack (.traffic fun c hc => ?_))
    rcases List.mem_append.mp hc with hc | hc
    · obtain ⟨m, hm, rfl⟩ := List.mem_map.mp hc
      exact htraffic m (List.IsPrefix.subset hprefix hm)
    · rcases hend with rfl | ⟨d, rfl⟩
      · exact absurd hc List.not_mem_nil
      · rw [List.mem_singleton.mp hc]
        exact ⟨Command.noConfusion, Command.noConfusion⟩

/-- The commands that are still to be handled pass the gate in the order in which they were sent. -/
def Sound (r : Reception) : Prop :=
  ∃ items, r.mailbox.Holds items ∧
    r.handler.state.Accepts (commands items ++ r.unread.map Message.command) ∧ r.violations = []

variable {r : Reception}

/-- A push keeps what is still to come in an order that passes. -/
lemma Sound.push (h : r.Sound) : (r.advance .push).Sound := by
  obtain ⟨items, hholds, haccepts, hnone⟩ := id h
  rw [advance]
  split
  · exact h
  · next m rest hunread =>
    have hpush := hholds.push (.message m)
    rw [hunread, List.map_cons] at haccepts
    split
    · next mailbox hqueued =>
      rw [hqueued, if_pos rfl] at hpush
      refine ⟨_, hpush, ?_, hnone⟩
      rw [Mailbox.commands_append, List.append_assoc]
      exact haccepts
    · next mailbox hdropped =>
      have hc : m.command ∈ MailboxItem.deduplicatedCommands :=
        Mailbox.command_of_dropped (congrArg Prod.snd hdropped)
      rw [hdropped, if_neg PushResult.noConfusion, List.append_nil] at hpush
      exact ⟨items, hpush, haccepts.drop hc, hnone⟩
    · exact h
    · exact h

/-- What is taken from the mailbox passes, and so does the rest after it. -/
lemma Sound.receive (h : r.Sound) (ledger : Ledger) (moment : Moment) :
    (r.advance (.receive ledger moment)).Sound := by
  obtain ⟨items, hholds, haccepts, hnone⟩ := id h
  rw [advance]
  split
  · next mailbox item hreceive =>
    obtain ⟨items', before, after, hholds', hcommands', hcommands, hover⟩ :=
      hholds.receive hreceive
    rw [hcommands, List.append_assoc, List.append_assoc] at haccepts
    obtain ⟨hgate, hnext⟩ :=
      HandshakeState.take_item (fun _ => HandshakeState.Accepts.take) haccepts hover
    refine ⟨items', hholds', ?_, ?_⟩
    · rw [hcommands', List.append_assoc, Handler.state_handle]
      exact hnext
    · dsimp only
      rw [hnone, Handler.violation?_handle hgate]
      rfl
  · exact h

/-- Every event keeps what is still to come in an order that passes. -/
lemma Sound.advance (h : r.Sound) (event : Event) : (r.advance event).Sound := by
  cases event with
  | push => exact h.push
  | ring =>
    obtain ⟨items, hholds, haccepts, hnone⟩ := h
    obtain ⟨items', hholds', hcommands⟩ := hholds.push_timer
    rw [← hcommands] at haccepts
    exact ⟨items', hholds', haccepts, hnone⟩
  | relay kind hash =>
    obtain ⟨items, hholds, haccepts, hnone⟩ := h
    obtain ⟨⟨known, hknown⟩, -⟩ := Handler.relay_spec r.handler kind hash
    refine ⟨items, hholds, ?_, hnone⟩
    rw [Reception.advance, hknown]
    exact haccepts
  | receive ledger moment => exact h.receive ledger moment

/-- Whatever the lanes of the mailbox have room for, and however the pushes of the messages, the
timer, announcements and the handling of items are interleaved: a well-behaved peer commits no
violation. -/
theorem no_violation_of_wellBehaved (capacity : Nat) (ledger : Ledger) (pendingTimeout : Nat)
    (messages : List Message) (hpeer : WellBehaved messages) (events : List Event) :
    (after capacity ledger pendingTimeout messages events).violations = [] := by
  suffices hsound : (after capacity ledger pendingTimeout messages events).Sound by
    obtain ⟨-, -, -, hnone⟩ := hsound
    exact hnone
  rw [after]
  induction events using List.reverseRecOn with
  | nil => exact ⟨[], Mailbox.holds_ofCapacity capacity, hpeer.accepts, rfl⟩
  | append_singleton events event ih =>
    rw [List.foldl_append]
    exact ih.advance event

/-- A filter overtakes a request, and neither overtakes the handshake. -/
theorem no_violation_of_peer_with_filter :
    ∃ (messages : List Message) (events : List Event) (ledger : Ledger),
      WellBehaved messages ∧
      (after 1 ledger 0 messages events).unread = [] ∧
      (after 1 ledger 0 messages events).handler.filter = some (BloomFilter.ofLoad ⟨[0], 1, 0⟩) ∧
      (after 1 ledger 0 messages events).violations = [] := by
  let ledger : Ledger := MemoryLedger.toLedger ⟨[], none, [], [], [], [], none, 0⟩
  let traffic : List Message := [.getAddr, .filterLoad ⟨[0], 1, 0⟩]
  let version : Version := ⟨0, 0, 0, 1, "", []⟩
  have hpeer : WellBehaved (.version version :: .verack :: traffic) := by
    refine ⟨version, traffic, fun m hm => ?_, _, List.prefix_rfl, .inl rfl⟩
    rcases List.mem_cons.mp hm with rfl | hm
    · exact ⟨Command.noConfusion, Command.noConfusion⟩
    · rw [List.mem_singleton.mp hm]
      exact ⟨Command.noConfusion, Command.noConfusion⟩
  let receive : Event := .receive ledger ⟨0, 0⟩
  let events : List Event := [.push, .push, receive, .push, .push, receive, .push, .push, receive]
  exact ⟨_, events, ledger, hpeer, by decide +kernel, by decide +kernel,
    no_violation_of_wellBehaved 1 ledger 0 _ hpeer events⟩

end Reception

end PeerNet
