import Mathlib
import PeerNet.Handler.Run

/-!
# What handling an item can come to

The gate looks at the state and the command, and the handler then looks at the message as well.  Of
the combinations that it could meet only six come about, one for each decision of the gate;
`Handles` lists them, and `handles_handleMessage` says that there are no others.  What is said about
handlers later goes through the six cases and never opens the handler again.

Of the work done once the handshake is complete it is enough to know two things: it leaves the state
and the peer's version alone, and its events belong to everyday traffic
(`HandlerEvent.isOperational`).
-/

namespace PeerNet

/-- Whether a command belongs to everyday traffic, and is neither part of the handshake nor a
farewell. -/
def Command.isOperational : Command → Bool
  | .version | .verack | .disconnect => false
  | _ => true

/-- Whether an event belongs to everyday traffic. -/
def HandlerEvent.isOperational : HandlerEvent → Bool
  | .send m => m.command.isOperational
  | .versionReceived _ | .ready _ | .stop => false
  | .filterChanged _ | .addressRequest | .peers _ | .relay _ | .remoteHeight _ => true

namespace Handler

variable {h : Handler} {ledger : Ledger} {moment : Moment}

/-! ## Everyday traffic -/

/-- Nodes to try instead are everyday business. -/
lemma isOperational_of_mem_suggestPeers (records : List AddressRecord) :
    ∀ e ∈ suggestPeers records, e.isOperational = true := by
  intro e he
  rw [suggestPeers] at he
  split at he
  · exact absurd he List.not_mem_nil
  · rw [List.mem_singleton.mp he]
    rfl

/-- The answer to a walk along the chain is everyday business. -/
lemma isOperational_of_mem_onGetBlocks (walk : ChainWalk) :
    ∀ e ∈ onGetBlocks ledger walk, e.isOperational = true := by
  intro e he
  rw [onGetBlocks] at he
  split at he
  · exact absurd he List.not_mem_nil
  · split at he
    · exact absurd he List.not_mem_nil
    · rw [List.mem_singleton.mp he]
      rfl

/-- The answer to a walk along the headers is everyday business. -/
lemma isOperational_of_mem_onGetHeaders (walk : ChainWalk) :
    ∀ e ∈ onGetHeaders ledger walk, e.isOperational = true := by
  intro e he
  rw [onGetHeaders] at he
  split at he
  · exact absurd he List.not_mem_nil
  · split at he
    · exact absurd he List.not_mem_nil
    · rw [List.mem_singleton.mp he]
      rfl

/-- A block is everyday traffic, whole or reduced. -/
lemma isOperational_blockMessage (h : Handler) (b : Block) :
    (h.blockMessage b).command.isOperational = true := by
  rw [blockMessage]
  split <;> rfl

/-- The blocks of a range are everyday business. -/
lemma isOperational_of_mem_onGetBlockData (range : BlockRange) :
    ∀ e ∈ h.onGetBlockData ledger range, e.isOperational = true := by
  intro e he
  obtain ⟨b, -, rfl⟩ := List.mem_map.mp he
  exact isOperational_blockMessage h b

/-- The announcements of what is in the pool are everyday business. -/
lemma isOperational_of_mem_onMempool : ∀ e ∈ onMempool ledger, e.isOperational = true := by
  intro e he
  obtain ⟨l, -, rfl⟩ := List.mem_map.mp he
  rfl

/-- An object asked for by hash is everyday traffic, whatever its kind. -/
lemma isOperational_of_objectMessage {kind : InventoryKind} {hash : Hash} {m : Message}
    (hm : h.objectMessage ledger kind hash = some m) : m.command.isOperational = true := by
  cases kind with
  | transaction =>
    obtain ⟨tx, -, rfl⟩ := Option.map_eq_some_iff.mp hm
    rfl
  | block =>
    obtain ⟨b, -, rfl⟩ := Option.map_eq_some_iff.mp hm
    exact isOperational_blockMessage h b
  | consensus =>
    obtain ⟨c, -, rfl⟩ := Option.map_eq_some_iff.mp hm
    rfl

/-- Serving a hash changes nothing but the set of hashes asked for, and sends one object at most. -/
lemma serveHash_spec (h : Handler) (ledger : Ledger) (kind : InventoryKind) (hash : Hash) :
    (∃ sent, (h.serveHash ledger kind hash).1 = { h with sent }) ∧
      ∀ e ∈ (h.serveHash ledger kind hash).2, e.isOperational = true := by
  rw [serveHash]
  split
  · exact ⟨⟨h.sent, rfl⟩, List.forall_mem_nil _⟩
  · next sent _ =>
    refine ⟨⟨sent, rfl⟩, fun e he => ?_⟩
    obtain ⟨m, hm, rfl⟩ := Option.map_eq_some_iff.mp (Option.mem_toList.mp he)
    exact isOperational_of_objectMessage hm

/-- So does serving many. -/
lemma serveOnto_spec (ledger : Ledger) (kind : InventoryKind) (hashes : List Hash) :
    ∀ (h : Handler) (answers : List HandlerEvent), (∀ e ∈ answers, e.isOperational = true) →
      (∃ sent, (h.serveOnto ledger kind hashes answers).1 = { h with sent }) ∧
        ∀ e ∈ (h.serveOnto ledger kind hashes answers).2, e.isOperational = true := by
  induction hashes with
  | nil =>
    intro h answers hanswers
    exact ⟨⟨h.sent, rfl⟩, fun e he => hanswers e (List.mem_reverse.mp he)⟩
  | cons hash rest ih =>
    intro h answers hanswers
    obtain ⟨⟨sent, hsent⟩, hevents⟩ := serveHash_spec h ledger kind hash
    have hall : ∀ e ∈ (h.serveHash ledger kind hash).2.reverse ++ answers,
        e.isOperational = true := by
      intro e he
      rcases List.mem_append.mp he with he | he
      · exact hevents e (List.mem_reverse.mp he)
      · exact hanswers e he
    have hrest := ih (h.serveHash ledger kind hash).1 _ hall
    rw [hsent] at hrest
    change (∃ sent, ((h.serveHash ledger kind hash).1.serveOnto ledger kind rest _).1 = _) ∧
      ∀ e ∈ ((h.serveHash ledger kind hash).1.serveOnto ledger kind rest _).2, _
    rw [hsent]
    exact hrest

/-- Taking up an announcement changes nothing but what is awaited. -/
lemma onInv_spec (h : Handler) (ledger : Ledger) (now : Nat) (l : HashList) :
    (∃ pending, (h.onInv ledger now l).handler = { h with pending }) ∧
      (h.onInv ledger now l).events = [] := by
  rw [onInv]
  dsimp only
  split <;> exact ⟨⟨_, rfl⟩, rfl⟩

/-- Work on a message leaves the state and the peer's version alone, and its events are everyday
traffic. -/
lemma dispatch_spec (h : Handler) (ledger : Ledger) (moment : Moment) (m : Message) :
    (h.dispatch ledger moment m).handler.state = h.state ∧
      (h.dispatch ledger moment m).handler.version = h.version ∧
      ∀ e ∈ (h.dispatch ledger moment m).events, e.isOperational = true := by
  cases m with
  | addr records => exact ⟨rfl, rfl, isOperational_of_mem_suggestPeers records⟩
  | getBlocks walk => exact ⟨rfl, rfl, isOperational_of_mem_onGetBlocks walk⟩
  | getHeaders walk => exact ⟨rfl, rfl, isOperational_of_mem_onGetHeaders walk⟩
  | getBlockData range => exact ⟨rfl, rfl, isOperational_of_mem_onGetBlockData range⟩
  | mempool => exact ⟨rfl, rfl, isOperational_of_mem_onMempool⟩
  | getData l =>
    obtain ⟨⟨sent, hsent⟩, hevents⟩ := serveOnto_spec ledger l.kind l.hashes h []
      (List.forall_mem_nil _)
    have hhandler : (h.dispatch ledger moment (.getData l)).handler = { h with sent } := hsent
    rw [hhandler]
    exact ⟨rfl, rfl, hevents⟩
  | inv l =>
    obtain ⟨⟨pending, hpending⟩, hevents⟩ := onInv_spec h ledger moment.now l
    rw [dispatch, hpending, hevents]
    exact ⟨rfl, rfl, List.forall_mem_nil _⟩
  | transaction tx =>
    rw [dispatch]
    split
    · exact ⟨rfl, rfl, List.forall_mem_nil _⟩
    · exact ⟨rfl, rfl, List.forall_mem_singleton.mpr rfl⟩
  | filterAdd f =>
    rw [dispatch, onFilterAdd]
    split
    · exact ⟨rfl, rfl, List.forall_mem_nil _⟩
    · exact ⟨rfl, rfl, List.forall_mem_singleton.mpr rfl⟩
  | ping p => exact ⟨rfl, rfl, List.forall_mem_cons.mpr ⟨rfl, List.forall_mem_singleton.mpr rfl⟩⟩
  | getAddr | pong p | block b | consensus c | filterLoad f | filterClear =>
    exact ⟨rfl, rfl, List.forall_mem_singleton.mpr rfl⟩
  | headers hs | version v | verack | disconnect d | notFound l | reject bytes | merkleBlock m
  | alert bytes =>
    exact ⟨rfl, rfl, List.forall_mem_nil _⟩

/-! ## Farewells -/

/-- What the last message of a peer may bring: nodes to try instead, and the end. -/
inductive Farewell : List HandlerEvent → Prop
  | plain : Farewell [.stop]
  | suggesting (records : List AddressRecord) : Farewell [.peers records, .stop]

/-- Whoever names nodes to try instead and ends the session says farewell. -/
lemma farewell_suggestPeers (records : List AddressRecord) :
    Farewell (suggestPeers records ++ [.stop]) := by
  rw [suggestPeers]
  split
  · exact .plain
  · exact .suggesting _

/-- A notice that the peer leaves brings a farewell, whatever it carries. -/
lemma farewell_onDisconnect (h : Handler) (d : Disconnect) :
    Farewell (h.onDisconnect d).events := by
  rw [onDisconnect]
  dsimp only [answering]
  split
  · split
    · exact farewell_suggestPeers _
    · exact .plain
  · exact .plain

/-! ## The six cases -/

/-- What becomes of a message, case by case. -/
inductive Handles (h : Handler) (ledger : Ledger) (moment : Moment) : Message → Handled → Prop
  | ignored (m : Message) (hstate : h.state = .stopped) :
    Handles h ledger moment m (.done (h.answering []))
  | parted (d : Disconnect) (hstate : h.state ≠ .stopped) :
    Handles h ledger moment (.disconnect d) (.done (h.onDisconnect d))
  | introduced (v : Version) (hstate : h.state = .awaitingVersion) :
    Handles h ledger moment (.version v) (.done
      ({ h with version := some v, state := .awaitingVerack }.answering [.versionReceived v]))
  | acknowledged (hstate : h.state = .awaitingVerack) :
    Handles h ledger moment .verack (.done
      ({ h with state := .ready }.answering (h.version.map HandlerEvent.ready).toList))
  | dispatched (m : Message) (hstate : h.state = .ready)
    (hcommand : m.command.isOperational = true) :
    Handles h ledger moment m (.done (h.dispatch ledger moment m))
  | violated (m : Message) (hgate : gate h.state m.command = .violation) :
    Handles h ledger moment m (.violation h.stop ⟨h.state, m.command⟩)

/-- Commands are ignored after the end, and only then. -/
lemma gate_eq_ignore_iff {s : HandshakeState} {c : Command} :
    gate s c = .ignore ↔ s = .stopped := by
  cases s <;> cases c <;> decide

/-- A farewell is welcome as long as anything is. -/
lemma gate_eq_disconnect_iff {s : HandshakeState} {c : Command} :
    gate s c = .disconnect ↔ s ≠ .stopped ∧ c = .disconnect := by
  cases s <;> cases c <;> decide

/-- A version is accepted where one is awaited, and nothing else is accepted as one. -/
lemma gate_eq_acceptVersion_iff {s : HandshakeState} {c : Command} :
    gate s c = .acceptVersion ↔ s = .awaitingVersion ∧ c = .version := by
  cases s <;> cases c <;> decide

/-- An acknowledgement is accepted where one is awaited, and nothing else is accepted as one. -/
lemma gate_eq_acceptVerack_iff {s : HandshakeState} {c : Command} :
    gate s c = .acceptVerack ↔ s = .awaitingVerack ∧ c = .verack := by
  cases s <;> cases c <;> decide

/-- Only a handler at work lets commands pass, and only those of everyday traffic. -/
lemma gate_eq_dispatch_iff {s : HandshakeState} {c : Command} :
    gate s c = .dispatch ↔ s = .ready ∧ c.isOperational = true := by
  cases s <;> cases c <;> decide

/-- A handler that has stopped makes nothing of a message. -/
lemma handleMessage_of_stopped (hstate : h.state = .stopped) (ledger : Ledger) (moment : Moment)
    (m : Message) : h.handleMessage ledger moment m = .done (h.answering []) := by
  unfold handleMessage
  rw [gate_eq_ignore_iff.mpr hstate]

/-- A handler makes one of the six things of a message, and the gate says which. -/
lemma handles_handleMessage (h : Handler) (ledger : Ledger) (moment : Moment) (m : Message) :
    Handles h ledger moment m (h.handleMessage ledger moment m) := by
  cases hgate : gate h.state m.command with
  | ignore =>
    have hstate : h.state = .stopped := gate_eq_ignore_iff.mp hgate
    rw [handleMessage_of_stopped hstate]
    exact .ignored m hstate
  | disconnect =>
    obtain ⟨hstate, hcommand⟩ := gate_eq_disconnect_iff.mp hgate
    cases m <;> simp only [Message.command, reduceCtorEq] at hcommand
    case disconnect d =>
      unfold handleMessage
      rw [hgate]
      exact .parted d hstate
  | acceptVersion =>
    obtain ⟨hstate, hcommand⟩ := gate_eq_acceptVersion_iff.mp hgate
    cases m <;> simp only [Message.command, reduceCtorEq] at hcommand
    case version v =>
      unfold handleMessage
      rw [hgate]
      exact .introduced v hstate
  | acceptVerack =>
    obtain ⟨hstate, hcommand⟩ := gate_eq_acceptVerack_iff.mp hgate
    cases m <;> simp only [Message.command, reduceCtorEq] at hcommand
    case verack =>
      unfold handleMessage
      rw [hgate]
      exact .acknowledged hstate
  | dispatch =>
    obtain ⟨hstate, hcommand⟩ := gate_eq_dispatch_iff.mp hgate
    unfold handleMessage
    rw [hgate]
    exact .dispatched m hstate hcommand
  | violation =>
    unfold handleMessage
    rw [hgate]
    exact .violated m hgate

end Handler

end PeerNet
