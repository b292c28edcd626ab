import Mathlib
import PeerNet.Proofs.Handler.Grammar
import PeerNet.Proofs.Tracking.FifoSet

/-!
# The hashes that a handler keeps

A handler keeps three sets of hashes: those that the peer has, those that it asked for, and those
that are awaited from it.  Five kinds of calls touch them: an announcement to the peer the first of
the sets, a delivery the first and the third, a request the second, and an announcement by the peer
and the timer the third.  `Tracks` lists the five with what each of them does, and `tracks_call`
says that every other call leaves the sets alone.
-/

namespace PeerNet

/-- The object that a message delivers; a transaction that is too large is not taken. -/
def Message.delivered? : Message → Option Inventory
  | .transaction tx =>
    if tx.size > Transaction.maxRelayedSize then none else some (.transaction tx)
  | .block b => some (.block b)
  | .consensus c => some (.consensus c)
  | _ => none

/-- The hashes that a message asks for. -/
def Message.requested : Message → List Hash
  | .getData l => l.hashes
  | _ => []

namespace Handler

/-- The object that a call delivers.  Nothing is taken unless the handshake is complete. -/
def Call.delivered? (s : HandshakeState) : Call → Option Inventory
  | .handle _ _ (.message m) => if s = .ready then m.delivered? else none
  | _ => none

/-- The hashes that a call asks for, once the handshake is complete. -/
def Call.requested (s : HandshakeState) : Call → List Hash
  | .handle _ _ (.message m) => if s = .ready then m.requested else []
  | _ => []

/-- What a call does to the sets of a handler. -/
inductive Tracks (h : Handler) : Call → Handler → Answer → Prop
  | untouched {c : Call} {h' : Handler} {a : Answer}
    (hknown : h'.known = h.known) (hsent : h'.sent = h.sent) (hpending : h'.pending = h.pending)
    (htimeout : h'.pendingTimeout = h.pendingTimeout) (hannouncement : a.announcement = none)
    (hreports : ∀ l, .newTasks l ∉ a.reports) (hdelivered : c.delivered? h.state = none)
    (hrequested : c.requested h.state = []) : Tracks h c h' a
  | announced (kind : InventoryKind) (hash : Hash) (hready : h.state = .ready)
    (hnode : h.version.any Version.isFullNode = true) (hsent : h.sent.contains hash = false)
    (hnew : (h.known.add hash).2 = true) :
    Tracks h (.relay kind hash) { h with known := (h.known.add hash).1 }
      ⟨[], [], some (.inv ⟨kind, [hash]⟩), none⟩
  | delivered {c : Call} (inventory : Inventory)
    (hdelivered : c.delivered? h.state = some inventory) :
    Tracks h c (h.onInventory inventory).handler
      ⟨(h.onInventory inventory).events, (h.onInventory inventory).reports, none, none⟩
  | requested (ledger : Ledger) (moment : Moment) (l : HashList) (hready : h.state = .ready) :
    Tracks h (.handle ledger moment (.message (.getData l)))
      { h with sent := h.sent.addAll l.hashes }
      ⟨(h.onGetData ledger l).events, [], none, none⟩
  | offered (ledger : Ledger) (moment : Moment) (l : HashList) (hready : h.state = .ready) :
    Tracks h (.handle ledger moment (.message (.inv l))) (h.onInv ledger moment.now l).handler
      ⟨[], (h.onInv ledger moment.now l).reports, none, none⟩
  | swept (ledger : Ledger) (moment : Moment) :
    Tracks h (.handle ledger moment .timer) (h.onTimer moment.now) ⟨[], [], none, none⟩

variable {h : Handler}

/-- Before the handshake is done, nothing counts as delivered. -/
lemma Call.delivered?_of_ne_ready (hstate : h.state ≠ .ready) (c : Call) :
    c.delivered? h.state = none := by
  rw [Call.delivered?.eq_def]
  split
  · exact if_neg hstate
  · rfl

/-- Before the handshake is done, nothing counts as asked for. -/
lemma Call.requested_of_ne_ready (hstate : h.state ≠ .ready) (c : Call) :
    c.requested h.state = [] := by
  rw [Call.requested.eq_def]
  split
  · exact if_neg hstate
  · rfl

/-- An announcement delivers nothing. -/
@[simp]
lemma Call.delivered?_inv (s : HandshakeState) (ledger : Ledger) (moment : Moment) (l : HashList) :
    (Call.handle ledger moment (.message (.inv l))).delivered? s = none := ite_self _

/-- A request delivers nothing. -/
@[simp]
lemma Call.delivered?_getData (s : HandshakeState) (ledger : Ledger) (moment : Moment)
    (l : HashList) : (Call.handle ledger moment (.message (.getData l))).delivered? s = none :=
  ite_self _

/-- An announcement asks for nothing. -/
@[simp]
lemma Call.requested_inv (s : HandshakeState) (ledger : Ledger) (moment : Moment) (l : HashList) :
    (Call.handle ledger moment (.message (.inv l))).requested s = [] := ite_self _

/-- A call that delivers an object asks for nothing. -/
lemma Call.requested_of_delivered {c : Call} {inventory : Inventory}
    (hdelivered : c.delivered? h.state = some inventory) : c.requested h.state = [] := by
  rw [Call.requested.eq_def]
  split
  · next m =>
    cases m with
    | getData l =>
      rw [Call.delivered?_getData] at hdelivered
      exact absurd hdelivered.symm (Option.some_ne_none inventory)
    | _ => exact ite_self _
  · rfl

/-- Neither does a message that is not allowed. -/
lemma Call.idle_of_violation {m : Message} (hgate : gate h.state m.command = .violation)
    (ledger : Ledger) (moment : Moment) :
    (Call.handle ledger moment (.message m)).delivered? h.state = none ∧
      (Call.handle ledger moment (.message m)).requested h.state = [] := by
  by_cases hready : h.state = .ready
  · have hcommand : m.command.isOperational = false := by
      by_contra hoperational
      have hdispatch := gate_eq_dispatch_iff.mpr ⟨hready, Bool.eq_true_of_not_eq_false hoperational⟩
      rw [hgate] at hdispatch
      exact absurd hdispatch (by decide)
    cases m with
    | version | verack | disconnect => exact ⟨ite_self _, ite_self _⟩
    | _ => exact absurd hcommand (Ne.symm Bool.false_ne_true)
  · exact ⟨Call.delivered?_of_ne_ready hready _, Call.requested_of_ne_ready hready _⟩

/-! ## Serving -/

/-- A hash that is served has been asked for. -/
lemma serveHash_handler (h : Handler) (ledger : Ledger) (kind : InventoryKind) (hash : Hash) :
    (h.serveHash ledger kind hash).1 = { h with sent := (h.sent.add hash).1 } := by
  rw [serveHash]
  split
  · next sent hadd =>
    have hsame : (h.sent.add hash).1 = h.sent :=
      FifoSet.add_fst_of_not_new (congrArg Prod.snd hadd)
    rw [hsame]
  · next sent hadd => rw [hadd]

/-- Serving a request enters all its hashes as sent, and changes nothing else. -/
lemma serveOnto_handler (ledger : Ledger) (kind : InventoryKind) (hashes : List Hash) :
    ∀ (h : Handler) (answers : List HandlerEvent),
      (h.serveOnto ledger kind hashes answers).1 = { h with sent := h.sent.addAll hashes } := by
  induction hashes with
  | nil => exact fun h answers => rfl
  | cons hash rest ih =>
    intro h answers
    have hnext := serveHash_handler h ledger kind hash
    rw [serveOnto, ih, hnext]
    rfl

/-! ## The five kinds of calls -/

/-- A message that does nothing to the sets leaves them alone. -/
lemma Tracks.of_unrelated {h' : Handler} {a : Answer} (hready : h.state = .ready) (ledger : Ledger)
    (moment : Moment) {m : Message} (hdelivered : m.delivered? = none)
    (hrequested : m.requested = []) (hknown : h'.known = h.known) (hsent : h'.sent = h.sent)
    (hpending : h'.pending = h.pending) (htimeout : h'.pendingTimeout = h.pendingTimeout)
    (hannouncement : a.announcement = none) (hreports : ∀ l, .newTasks l ∉ a.reports) :
    h.Tracks (.handle ledger moment (.message m)) h' a := by
  refine .untouched hknown hsent hpending htimeout hannouncement hreports ?_ ?_
  · exact (if_pos hready).trans hdelivered
  · exact (if_pos hready).trans hrequested

/-- What work on a message does to the sets. -/
lemma tracks_dispatch (hready : h.state = .ready) (ledger : Ledger) (moment : Moment)
    (m : Message) :
    h.Tracks (.handle ledger moment (.message m)) (h.dispatch ledger moment m).handler
      ⟨(h.dispatch ledger moment m).events, (h.dispatch ledger moment m).reports, none, none⟩ := by
  cases m with
  | getData l =>
    have hhandler : (h.dispatch ledger moment (.getData l)).handler =
        { h with sent := h.sent.addAll l.hashes } := serveOnto_handler ledger l.kind l.hashes h []
    rw [hhandler]
    exact .requested ledger moment l hready
  | inv l =>
    have hevents : (h.dispatch ledger moment (.inv l)).events = [] :=
      (onInv_spec h ledger moment.now l).2
    rw [hevents]
    exact .offered ledger moment l hready
  | transaction tx =>
    rw [dispatch]
    split
    · next hlarge =>
      exact .of_unrelated hready ledger moment (if_pos hlarge) rfl rfl rfl rfl rfl rfl
        fun l => List.not_mem_nil
    · next hsmall =>
      exact .delivered (.transaction tx) ((if_pos hready).trans (if_neg hsmall))
  | block b => exact .delivered (.block b) (if_pos hready)
  | consensus c => exact .delivered (.consensus c) (if_pos hready)
  | headers hs =>
    refine .of_unrelated hready ledger moment rfl rfl rfl rfl rfl rfl rfl fun l => ?_
    rw [dispatch]
    split <;> simp
  | filterAdd f =>
    rw [dispatch, onFilterAdd]
    split <;>
      exact .of_unrelated hready ledger moment rfl rfl rfl rfl rfl rfl rfl fun l => List.not_mem_nil
  | addr | getAddr | ping | pong | getBlocks | getHeaders | getBlockData | mempool | filterLoad
  | filterClear | version | verack | disconnect | notFound | reject | merkleBlock | alert =>
    exact .of_unrelated hready ledger moment rfl rfl rfl rfl rfl rfl rfl fun l => List.not_mem_nil

/-- What a message does to the sets. -/
lemma tracks_handleMessage (h : Handler) (ledger : Ledger) (moment : Moment) (m : Message) :
    h.Tracks (.handle ledger moment (.message m)) (h.handleMessage ledger moment m).handler
      ⟨(h.handleMessage ledger moment m).events, (h.handleMessage ledger moment m).reports, none,
        (h.handleMessage ledger moment m).violation?⟩ := by
  have hr := handles_handleMessage h ledger moment m
  generalize h.handleMessage ledger moment m = r at hr
  cases hr with
  | dispatched m hstate hcommand => exact tracks_dispatch hstate ledger moment m
  | introduced v hstate | acknowledged hstate =>
    have hunready : h.state ≠ .ready := by
      rw [hstate]
      decide
    exact .untouched rfl rfl rfl rfl rfl (fun l => List.not_mem_nil)
      (Call.delivered?_of_ne_ready hunready _) (Call.requested_of_ne_ready hunready _)
  | ignored m hstate =>
    have hunready : h.state ≠ .ready := by
      rw [hstate]
      decide
    exact .untouched rfl rfl rfl rfl rfl (fun l => List.not_mem_nil)
      (Call.delivered?_of_ne_ready hunready _) (Call.requested_of_ne_ready hunready _)
  | parted d hstate =>
    exact .untouched rfl rfl rfl rfl rfl (fun l => List.not_mem_nil) (ite_self _) (ite_self _)
  | violated m hgate =>
    obtain ⟨hdelivered, hrequested⟩ := Call.idle_of_violation hgate ledger moment
    exact .untouched rfl rfl rfl rfl rfl (fun l => List.not_mem_nil) hdelivered hrequested

/-- An announcement is made, or nothing happens. -/
lemma tracks_relay (h : Handler) (kind : InventoryKind) (hash : Hash) :
    h.Tracks (.relay kind hash) (h.relay kind hash).1 ⟨[], [], (h.relay kind hash).2, none⟩ := by
  rw [relay]
  split
  · next hopen =>
    obtain ⟨hready, hnode, hsent⟩ := hopen
    split
    · next known hadd =>
      have hknown : (h.known.add hash).1 = known := congrArg Prod.fst hadd
      rw [← hknown]
      exact .announced kind hash hready hnode (by simpa using hsent) (congrArg Prod.snd hadd)
    · exact .untouched rfl rfl rfl rfl rfl (fun l => List.not_mem_nil) rfl rfl
  · exact .untouched rfl rfl rfl rfl rfl (fun l => List.not_mem_nil) rfl rfl

/-- What any call does to the sets. -/
lemma tracks_call (h : Handler) (c : Call) : h.Tracks c (h.call c).1 (h.call c).2 := by
  cases c with
  | handle ledger moment item =>
    cases item with
    | message m => exact tracks_handleMessage h ledger moment m
    | timer => exact .swept ledger moment
  | relay kind hash => exact tracks_relay h kind hash
  | stop => exact .untouched rfl rfl rfl rfl rfl (fun l => List.not_mem_nil) rfl rfl

end Handler

end PeerNet
