import PeerNet.Proofs.Handler.Step

/-!
# The grammar of a handler's events

A handler is called in any order and with anything: items of its mailbox at any moment and over any
ledger, objects to announce, and the order to stop.  `Handler.Run` is a handler in the course of
such calls together with all events that it has answered.

`Script` is the grammar: the version, the completed handshake, everyday traffic, a farewell, each
only after what comes before it, and none but the third more than once.  It names the state and the
peer's version beside the events, since the three always tell the same story.  Every call keeps them
together, so they stay together in every run.
-/

namespace PeerNet

namespace Handler

/-- One call to a handler. -/
inductive Call
  /-- An item is handled. -/
  | handle (ledger : Ledger) (moment : Moment) (item : MailboxItem)
  /-- An object is to be announced. -/
  | relay (kind : InventoryKind) (hash : Hash)
  | stop

/-- What a call answers. -/
structure Answer where
  events : List HandlerEvent
  reports : List TaskReport
  announcement : Option Message
  violation : Option ProtocolViolation

/-- The violation that an item was, if it was one. -/
def Handled.violation? : Handled → Option ProtocolViolation
  | done _ => none
  | violation _ v => some v

/-- The handler after a call, and the answer. -/
def call (h : Handler) : Call → Handler × Answer
  | .handle ledger moment item =>
    let handled := h.handle ledger moment item
    (handled.handler, ⟨handled.events, handled.reports, none, handled.violation?⟩)
  | .relay kind hash => ((h.relay kind hash).1, ⟨[], [], (h.relay kind hash).2, none⟩)
  | .stop => (h.stop, ⟨[], [], none, none⟩)

/-- Everyday traffic is worked on, once the handshake is complete. -/
lemma call_message_of_ready {h : Handler} (hready : h.state = .ready) (ledger : Ledger)
    (moment : Moment) {m : Message} (hcommand : m.command.isOperational = true) :
    h.call (.handle ledger moment (.message m)) =
      ((h.dispatch ledger moment m).handler,
        ⟨(h.dispatch ledger moment m).events, (h.dispatch ledger moment m).reports, none,
         none⟩) := by
  have hgate : gate h.state m.command = .dispatch := gate_eq_dispatch_iff.mpr ⟨hready, hcommand⟩
  have hhandled : h.handleMessage ledger moment m = .done (h.dispatch ledger moment m) := by
    unfold handleMessage
    rw [hgate]
  have hcall : h.call (.handle ledger moment (.message m)) =
      ((h.handleMessage ledger moment m).handler,
        ⟨(h.handleMessage ledger moment m).events, (h.handleMessage ledger moment m).reports, none,
          (h.handleMessage ledger moment m).violation?⟩) := rfl
  rw [hcall, hhandled]
  rfl

/-- The version that a call brings, if the gate accepts it. -/
def Call.accepted? (s : HandshakeState) : Call → Option Version
  | .handle _ _ (.message (.version v)) =>
    if gate s .version = .acceptVersion then some v else none
  | _ => none

/-- What the gate says against a call, if it says anything. -/
def Call.objection? (s : HandshakeState) : Call → Option ProtocolViolation
  | .handle _ _ (.message m) =>
    if gate s m.command = .violation then some ⟨s, m.command⟩ else none
  | _ => none

/-! ## One call -/

/-- The rules that a call keeps. -/
structure Obeys (h : Handler) (c : Call) : Prop where
  /-- The state only moves forward. -/
  forward : h.state.rank ≤ (h.call c).1.state.rank
  /-- The peer's version is the one that the call brings, and otherwise stays. -/
  version_eq : (h.call c).1.version = (c.accepted? h.state).or h.version
  /-- Nothing is reported, sent or announced unless the handshake is complete. -/
  reserved : h.state ≠ .ready → (h.call c).2.reports = [] ∧ (h.call c).2.announcement = none ∧
    ∀ m, .send m ∉ (h.call c).2.events
  /-- A violation is what the gate says against the call. -/
  violation_eq : (h.call c).2.violation = c.objection? h.state
  /-- A violation stops the handler, and brings nothing. -/
  stopped_of_violation : (h.call c).2.violation ≠ none →
    (h.call c).1.state = .stopped ∧ (h.call c).2.events = [] ∧ (h.call c).2.reports = []

/-- The announcement of an object changes nothing but the hashes that the peer is known to have, and
there is none unless the handshake is complete. -/
lemma relay_spec (h : Handler) (kind : InventoryKind) (hash : Hash) :
    (∃ known, (h.relay kind hash).1 = { h with known }) ∧
      (h.state ≠ .ready → (h.relay kind hash).2 = none) := by
  rw [relay]
  split_ifs with hready
  · refine ⟨?_, fun hstate => absurd hready.1 hstate⟩
    split <;> exact ⟨_, rfl⟩
  · exact ⟨⟨h.known, rfl⟩, fun _ => rfl⟩

/-- Nothing comes after the end. -/
lemma rank_le_rank_stopped (s : HandshakeState) : s.rank ≤ HandshakeState.stopped.rank := by
  cases s <;> decide

/-- A farewell sends nothing. -/
lemma Farewell.send_notMem {events : List HandlerEvent} (h : Farewell events) (m : Message) :
    .send m ∉ events := by
  cases h <;> simp

/-- A message brings no version unless the gate accepts one. -/
lemma accepted?_of_gate_ne {s : HandshakeState} {m : Message}
    (h : gate s m.command ≠ .acceptVersion) (ledger : Ledger) (moment : Moment) :
    (Call.handle ledger moment (.message m)).accepted? s = none := by
  cases m with
  | version v => exact if_neg h
  | _ => rfl

/-- Nor does any call, once the peer's version is there. -/
lemma accepted?_of_ne_awaitingVersion {s : HandshakeState} (hstate : s ≠ .awaitingVersion)
    (c : Call) : c.accepted? s = none := by
  cases c with
  | handle ledger moment item =>
    cases item with
    | message m =>
      refine accepted?_of_gate_ne (fun hgate => ?_) ledger moment
      exact hstate (gate_eq_acceptVersion_iff.mp hgate).1
    | timer => rfl
  | _ => rfl

/-- The gate says nothing against a message that it does not call a violation. -/
lemma objection?_of_gate_ne {s : HandshakeState} {m : Message} (h : gate s m.command ≠ .violation)
    (ledger : Ledger) (moment : Moment) :
    (Call.handle ledger moment (.message m)).objection? s = none := if_neg h

/-- A message is treated by the rules. -/
lemma obeys_handle_message (h : Handler) (ledger : Ledger) (moment : Moment) (m : Message) :
    h.Obeys (.handle ledger moment (.message m)) := by
  suffices hrules : ∀ r, h.Handles ledger moment m r →
      h.state.rank ≤ r.handler.state.rank ∧
      r.handler.version =
        ((Call.handle ledger moment (.message m)).accepted? h.state).or h.version ∧
      (h.state ≠ .ready → r.reports = [] ∧ ∀ m', .send m' ∉ r.events) ∧
      r.violation? = (Call.handle ledger moment (.message m)).objection? h.state ∧
      (r.violation? ≠ none → r.handler.state = .stopped ∧ r.events = [] ∧ r.reports = []) by
    obtain ⟨hforward, hversion, hreserved, hviolation, hstopped⟩ :=
      hrules _ (handles_handleMessage h ledger moment m)
    exact ⟨hforward, hversion,
      fun hstate => ⟨(hreserved hstate).1, rfl, (hreserved hstate).2⟩, hviolation, hstopped⟩
  intro r hr
  cases hr with
  | ignored m hstate =>
    have hgate : gate h.state m.command = .ignore := gate_eq_ignore_iff.mpr hstate
    rw [accepted?_of_gate_ne (by rw [hgate]; decide),
      objection?_of_gate_ne (by rw [hgate]; decide)]
    exact ⟨le_rfl, rfl, fun _ => ⟨rfl, fun _ => List.not_mem_nil⟩, rfl, fun hne => absurd rfl hne⟩
  | parted d hstate =>
    have hgate : gate h.state (Message.disconnect d).command = .disconnect :=
      gate_eq_disconnect_iff.mpr ⟨hstate, rfl⟩
    rw [objection?_of_gate_ne (by rw [hgate]; decide)]
    exact ⟨rank_le_rank_stopped _, rfl,
      fun _ => ⟨rfl, (farewell_onDisconnect h d).send_notMem⟩, rfl, fun hne => absurd rfl hne⟩
  | introduced v hstate =>
    rw [hstate]
    exact ⟨Nat.zero_le _, rfl, fun _ => ⟨rfl, fun m' => by simp [Handled.events, answering]⟩, rfl,
      fun hne => absurd rfl hne⟩
  | acknowledged hstate =>
    rw [hstate]
    refine ⟨Nat.le_succ 1, rfl, fun _ => ⟨rfl, fun m' => ?_⟩, rfl, fun hne => absurd rfl hne⟩
    cases hversion : h.version <;> simp [Handled.events, answering]
  | dispatched m hstate hcommand =>
    have hgate : gate h.state m.command = .dispatch := gate_eq_dispatch_iff.mpr ⟨hstate, hcommand⟩
    obtain ⟨hstate', hversion, -⟩ := dispatch_spec h ledger moment m
    rw [accepted?_of_gate_ne (by rw [hgate]; decide),
      objection?_of_gate_ne (by rw [hgate]; decide)]
    exact ⟨(congrArg HandshakeState.rank hstate').ge, hversion, fun hne => absurd hstate hne, rfl,
      fun hne => absurd rfl hne⟩
  | violated m hgate =>
    rw [accepted?_of_gate_ne (by rw [hgate]; decide)]
    exact ⟨rank_le_rank_stopped _, rfl, fun _ => ⟨rfl, fun _ => List.not_mem_nil⟩,
      (if_pos hgate).symm, fun _ => ⟨rfl, rfl, rfl⟩⟩

/-- Every call keeps the rules. -/
lemma obeys (h : Handler) (c : Call) : h.Obeys c := by
  cases c with
  | handle ledger moment item =>
    cases item with
    | message m => exact obeys_handle_message h ledger moment m
    | timer =>
      exact ⟨le_rfl, rfl, fun _ => ⟨rfl, rfl, fun _ => List.not_mem_nil⟩, rfl,
        fun hne => absurd rfl hne⟩
  | relay kind hash =>
    obtain ⟨⟨known, hknown⟩, hnone⟩ := relay_spec h kind hash
    have hcall : (h.call (.relay kind hash)).1 = { h with known } := hknown
    refine ⟨?_, ?_, fun hstate => ⟨rfl, hnone hstate, fun _ => List.not_mem_nil⟩, rfl,
      fun hne => absurd rfl hne⟩
    · rw [hcall]
    · rw [hcall]
      rfl
  | stop =>
    exact ⟨rank_le_rank_stopped _, rfl, fun _ => ⟨rfl, rfl, fun _ => List.not_mem_nil⟩, rfl,
      fun hne => absurd rfl hne⟩

/-! ## The grammar -/

/-- How the events of a handler, its state and the peer's version go together. -/
inductive Script : HandshakeState → Option Version → List HandlerEvent → Prop
  | fresh : Script .awaitingVersion none []
  | introduced (v : Version) : Script .awaitingVerack (some v) [.versionReceived v]
  | working (v : Version) {events : List HandlerEvent}
    (hevents : ∀ e ∈ events, e.isOperational = true) :
    Script .ready (some v) (.versionReceived v :: .ready v :: events)
  /-- The handler was stopped, by a violation or from outside. -/
  | silenced {s : HandshakeState} {version : Option Version} {events : List HandlerEvent}
    (hscript : Script s version events) : Script .stopped version events
  /-- The peer said farewell. -/
  | parted {s : HandshakeState} {version : Option Version} {events farewell : List HandlerEvent}
    (hscript : Script s version events) (hstate : s ≠ .stopped) (hfarewell : Farewell farewell) :
    Script .stopped version (events ++ farewell)

/-- Before the peer's version nothing has happened. -/
lemma Script.of_awaitingVersion {version : Option Version} {events : List HandlerEvent}
    (h : Script .awaitingVersion version events) : version = none ∧ events = [] := by
  cases h
  exact ⟨rfl, rfl⟩

/-- Between the version and its acknowledgement nothing but the version has happened. -/
lemma Script.of_awaitingVerack {version : Option Version} {events : List HandlerEvent}
    (h : Script .awaitingVerack version events) :
    ∃ v, version = some v ∧ events = [.versionReceived v] := by
  cases h with
  | introduced v => exact ⟨v, rfl, rfl⟩

/-- Everyday traffic follows on everyday traffic. -/
lemma Script.append_of_ready {version : Option Version} {events more : List HandlerEvent}
    (h : Script .ready version events) (hmore : ∀ e ∈ more, e.isOperational = true) :
    Script .ready version (events ++ more) := by
  cases h with
  | working v hevents =>
    refine .working v fun e he => ?_
    rcases List.mem_append.mp he with he | he
    · exact hevents e he
    · exact hmore e he

/-- A message keeps the grammar. -/
lemma Script.handles {h : Handler} {ledger : Ledger} {moment : Moment} {m : Message} {r : Handled}
    {events : List HandlerEvent} (hscript : Script h.state h.version events)
    (hr : h.Handles ledger moment m r) :
    Script r.handler.state r.handler.version (events ++ r.events) := by
  cases hr with
  | ignored m hstate =>
    rw [show (Handled.done (h.answering [])).events = [] from rfl, List.append_nil]
    exact hscript
  | parted d hstate => exact .parted hscript hstate (farewell_onDisconnect h d)
  | introduced v hstate =>
    rw [hstate] at hscript
    obtain ⟨-, rfl⟩ := hscript.of_awaitingVersion
    exact .introduced v
  | acknowledged hstate =>
    rw [hstate] at hscript
    obtain ⟨v, hversion, rfl⟩ := hscript.of_awaitingVerack
    change Script .ready h.version
      ([.versionReceived v] ++ (h.version.map HandlerEvent.ready).toList)
    rw [hversion]
    exact .working v (List.forall_mem_nil _)
  | dispatched m hstate hcommand =>
    obtain ⟨hstate', hversion, hevents⟩ := dispatch_spec h ledger moment m
    change Script (h.dispatch ledger moment m).handler.state
      (h.dispatch ledger moment m).handler.version (events ++ (h.dispatch ledger moment m).events)
    rw [hstate', hversion, hstate]
    rw [hstate] at hscript
    exact hscript.append_of_ready hevents
  | violated m hgate =>
    rw [show (Handled.violation h.stop ⟨h.state, m.command⟩).events = [] from rfl,
      List.append_nil]
    exact .silenced hscript

/-- So does every call. -/
lemma Script.call {h : Handler} {events : List HandlerEvent}
    (hscript : Script h.state h.version events) (c : Call) :
    Script (h.call c).1.state (h.call c).1.version (events ++ (h.call c).2.events) := by
  cases c with
  | handle ledger moment item =>
    cases item with
    | message m => exact hscript.handles (handles_handleMessage h ledger moment m)
    | timer =>
      rw [show (h.call (.handle ledger moment .timer)).2.events = [] from rfl, List.append_nil]
      exact hscript
  | relay kind hash =>
    obtain ⟨⟨known, hknown⟩, -⟩ := relay_spec h kind hash
    rw [show (h.call (.relay kind hash)).1 = { h with known } from hknown,
      show (h.call (.relay kind hash)).2.events = [] from rfl, List.append_nil]
    exact hscript
  | stop =>
    rw [show (h.call .stop).2.events = [] from rfl, List.append_nil]
    exact .silenced hscript

/-- A handler that has stopped brings no events any more. -/
lemma call_events_of_stopped {h : Handler} (hstate : h.state = .stopped) (c : Call) :
    (h.call c).2.events = [] := by
  cases c with
  | handle ledger moment item =>
    cases item with
    | message m =>
      change (h.handleMessage ledger moment m).events = []
      rw [handleMessage_of_stopped hstate]
      rfl
    | timer => rfl
  | relay kind hash => rfl
  | stop => rfl

/-! ## Runs -/

/-- A handler in the course of its calls. -/
structure Run where
  handler : Handler
  /-- The events of all calls, in order. -/
  events : List HandlerEvent

namespace Run

/-- One call more. -/
def advance (ρ : Run) (c : Call) : Run :=
  ⟨(ρ.handler.call c).1, ρ.events ++ (ρ.handler.call c).2.events⟩

/-- What calls lead to. -/
def advanceAll (ρ : Run) (calls : List Call) : Run := calls.foldl advance ρ

/-- What calls on a new handler lead to. -/
def after (ledger : Ledger) (pendingTimeout : Nat) (calls : List Call) : Run :=
  advanceAll ⟨Handler.start ledger pendingTimeout, []⟩ calls

variable {ledger : Ledger} {pendingTimeout : Nat} {calls : List Call}

lemma after_append (more : List Call) :
    after ledger pendingTimeout (calls ++ more) =
      (after ledger pendingTimeout calls).advanceAll more := List.foldl_append ..

/-- The events of a new handler follow the grammar, whatever is called. -/
lemma script_after (ledger : Ledger) (pendingTimeout : Nat) (calls : List Call) :
    Script (after ledger pendingTimeout calls).handler.state
      (after ledger pendingTimeout calls).handler.version
      (after ledger pendingTimeout calls).events := by
  induction calls using List.reverseRecOn with
  | nil => exact .fresh
  | append_singleton calls c ih =>
    rw [after_append]
    exact ih.call c

/-- The state never moves backwards. -/
lemma rank_le_advanceAll (ρ : Run) (more : List Call) :
    ρ.handler.state.rank ≤ (ρ.advanceAll more).handler.state.rank := by
  induction more generalizing ρ with
  | nil => exact le_rfl
  | cons c more ih => exact (ρ.handler.obeys c).forward.trans (ih (ρ.advance c))

/-- The peer's version stays what it is. -/
lemma version_after_append {v : Version}
    (hversion : (after ledger pendingTimeout calls).handler.version = some v) (more : List Call) :
    (after ledger pendingTimeout (calls ++ more)).handler.version = some v := by
  induction more using List.reverseRecOn with
  | nil =>
    rw [List.append_nil]
    exact hversion
  | append_singleton more c ih =>
    have hscript := script_after ledger pendingTimeout (calls ++ more)
    rw [ih] at hscript
    have hstate : (after ledger pendingTimeout (calls ++ more)).handler.state ≠
        .awaitingVersion := by
      intro hstate
      rw [hstate] at hscript
      exact Option.some_ne_none v hscript.of_awaitingVersion.1
    have hcall := ((after ledger pendingTimeout (calls ++ more)).handler.obeys c).version_eq
    rw [accepted?_of_ne_awaitingVersion hstate, Option.none_or, ih] at hcall
    rw [← List.append_assoc, after_append]
    exact hcall

/-- Only the end comes as late as the end. -/
lemma eq_stopped_of_rank_le {s : HandshakeState} (h : HandshakeState.stopped.rank ≤ s.rank) :
    s = .stopped := by
  cases s with
  | stopped => rfl
  | _ => exact absurd h (by decide)

/-- Nothing comes of a handler that has stopped. -/
lemma events_advanceAll_of_stopped {ρ : Run} (hstate : ρ.handler.state = .stopped)
    (more : List Call) : (ρ.advanceAll more).events = ρ.events := by
  induction more generalizing ρ with
  | nil => rfl
  | cons c more ih =>
    have hnext : (ρ.advance c).handler.state = .stopped := by
      refine eq_stopped_of_rank_le ?_
      rw [← hstate]
      exact (ρ.handler.obeys c).forward
    have hevents : (ρ.advance c).events = ρ.events := by
      rw [advance, call_events_of_stopped hstate, List.append_nil]
    exact (ih hnext).trans hevents

/-- Whatever is called on a new handler, its events follow the grammar, in step with its state and
with the peer's version.  Further calls never move the state backwards, never change the version
once it is there, and bring no events once the handler has stopped.  And every call keeps the rules:
nothing is reported, sent or announced outside the working state, the version is the one that the
gate accepted, and a violation is what the gate says against the call. -/
theorem events_follow_script (ledger : Ledger) (pendingTimeout : Nat) (calls : List Call) :
    Script (after ledger pendingTimeout calls).handler.state
      (after ledger pendingTimeout calls).handler.version
      (after ledger pendingTimeout calls).events ∧
    (∀ more,
      (after ledger pendingTimeout calls).handler.state.rank ≤
        (after ledger pendingTimeout (calls ++ more)).handler.state.rank ∧
      (∀ v, (after ledger pendingTimeout calls).handler.version = some v →
        (after ledger pendingTimeout (calls ++ more)).handler.version = some v) ∧
      ((after ledger pendingTimeout calls).handler.state = .stopped →
        (after ledger pendingTimeout (calls ++ more)).events =
          (after ledger pendingTimeout calls).events)) ∧
    ∀ c, (after ledger pendingTimeout calls).handler.Obeys c := by
  refine ⟨script_after ledger pendingTimeout calls, fun more => ⟨?_, ?_, fun hstate => ?_⟩,
    fun c => obeys _ c⟩
  · rw [after_append]
    exact rank_le_advanceAll _ more
  · exact fun v hversion => version_after_append hversion more
  · rw [after_append]
    exact events_advanceAll_of_stopped hstate more

end Run

end Handler

end PeerNet
