import Mathlib
import PeerNet.Ledger.Memory
import PeerNet.Proofs.Handler.Announcement
import PeerNet.Proofs.Handler.Work

/-!
# What is sent for a request

A handler goes through the hashes of a request one after the other.  A hash whose turn has come
(`Handler.Serving`) is entered among those that the peer asked for, unless it is one of them
already; only if it is entered is the object looked up, and sent if the ledger has it.

All hashes that were ever asked for, request after request, stand in one row (`Serving.InRow`): each
finds the set as the one before has left it.  So an object that is sent twice was driven out of the
set in between, by as many others as the set has places for.

Since a hash is entered before the object is looked up, the set says what was asked for and not what
was sent.  A request that came too early keeps all later ones from being answered, for as long as
the set remembers it.
-/

namespace PeerNet

namespace Handler

/-- A hash of a request when its turn comes. -/
structure Serving where
  before : Handler
  ledger : Ledger
  kind : InventoryKind
  hash : Hash

namespace Serving

/-- The handler after the turn. -/
def after (s : Serving) : Handler := (s.before.serveHash s.ledger s.kind s.hash).1

/-- What is sent in the turn. -/
def events (s : Serving) : List HandlerEvent := (s.before.serveHash s.ledger s.kind s.hash).2

/-- Whether the hash is entered among those that the peer asked for. -/
def isEntered (s : Serving) : Bool := (s.before.sent.add s.hash).2

/-- An object is sent if its hash is entered and the ledger has it. -/
lemma events_eq (s : Serving) :
    s.events = if s.isEntered then
      ((s.before.objectMessage s.ledger s.kind s.hash).map HandlerEvent.send).toList else [] := by
  unfold events isEntered serveHash
  split
  · next hadd =>
    rw [hadd]
    rfl
  · next sent hadd =>
    rw [hadd]
    rfl

/-- What is answered is entered as sent. -/
lemma isEntered_of_events {s : Serving} (h : s.events ≠ []) : s.isEntered = true := by
  by_contra hold
  rw [events_eq, if_neg hold] at h
  exact h rfl

/-- A hash of a request counts as sent after its turn, whether it is answered or not. -/
lemma sent_after (s : Serving) : s.after.sent = (s.before.sent.add s.hash).1 := by
  unfold after
  rw [serveHash_handler]

/-- A hash is entered exactly if the set does not remember it. -/
lemma remembers_after {s : Serving} {log : List Hash} (h : s.before.sent.Remembers log) :
    s.after.sent.Remembers (log ++ if s.isEntered then [s.hash] else []) ∧
      s.after.sent.capacity = s.before.sent.capacity ∧
      (s.isEntered = true ↔ s.hash ∉ log.rtake s.before.sent.capacity) := by
  rw [sent_after]
  exact h.add s.hash

/-! ## Hashes in a row -/

/-- Every hash finds the set as the one before has left it. -/
def InRow (sent : FifoSet Hash) : List Serving → Prop
  | [] => True
  | s :: rest => s.before.sent = sent ∧ InRow (sent.add s.hash).1 rest

/-- Two rows follow one another if the second finds the set as the first has left it. -/
lemma inRow_append {sent : FifoSet Hash} {row row' : List Serving} :
    InRow sent (row ++ row') ↔
      InRow sent row ∧ InRow (sent.addAll (row.map Serving.hash)) row' := by
  induction row generalizing sent with
  | nil => exact ⟨fun h => ⟨trivial, h⟩, And.right⟩
  | cons s rest ih =>
    rw [List.cons_append, InRow, InRow, ih, and_assoc]
    rfl

/-- The hashes of a row that are entered are those that are new to the set. -/
lemma InRow.map_hash_filter {sent : FifoSet Hash} {row : List Serving} (h : InRow sent row) :
    (row.filter isEntered).map Serving.hash = sent.inserted (row.map Serving.hash) := by
  induction row generalizing sent with
  | nil => rfl
  | cons s rest ih =>
    obtain ⟨rfl, hrest⟩ := h
    rw [List.map_cons, FifoSet.inserted, ← ih hrest, List.filter_cons]
    change _ = (if s.isEntered then [s.hash] else []) ++ _
    split <;> rfl

/-- Two entries of one hash in a row have as many others in between as the set has places for. -/
lemma InRow.exists_others {sent : FifoSet Hash} {log : List Hash}
    {earlier between later : List Serving}
    {first second : Serving} (hremembers : sent.Remembers log)
    (h : InRow sent (earlier ++ first :: between ++ second :: later))
    (hhash : first.hash = second.hash) (hfirst : first.isEntered = true)
    (hsecond : second.isEntered = true) :
    ∃ others : List Hash, others.Sublist ((between.filter isEntered).map Serving.hash) ∧
      others.length = sent.capacity ∧ others.Nodup ∧ first.hash ∉ others := by
  obtain ⟨hupToSecond, hthere, -⟩ := inRow_append.mp h
  obtain ⟨-, hhere, hbetween⟩ := inRow_append.mp hupToSecond
  obtain ⟨hbefore, hcapacity⟩ := hremembers.addAll (earlier.map Serving.hash)
  have hnew : ((sent.addAll (earlier.map Serving.hash)).add first.hash).2 = true := by
    rw [← hhere]
    exact hfirst
  have hagain : ((((sent.addAll (earlier.map Serving.hash)).add first.hash).1.addAll
      (between.map Serving.hash)).add first.hash).2 = true := by
    have hleft : second.before.sent =
        ((sent.addAll (earlier.map Serving.hash)).add first.hash).1.addAll
          (between.map Serving.hash) := by
      rw [hthere, List.map_append, FifoSet.addAll, List.foldl_append]
      rfl
    rw [← hleft, hhash]
    exact hsecond
  obtain ⟨others, hothers, hlength, hnodup, hother⟩ := hbefore.exists_others_between hnew hagain
  refine ⟨others, ?_, hlength.trans hcapacity, hnodup, hother⟩
  rw [hbetween.map_hash_filter]
  exact hothers

end Serving

/-! ## Requests -/

/-- The hashes of a request, each when its turn comes. -/
def servings (h : Handler) (ledger : Ledger) (kind : InventoryKind) :
    (hashes : List Hash) → List Serving
  | [] => []
  | hash :: rest => ⟨h, ledger, kind, hash⟩ ::
      servings (h.serveHash ledger kind hash).1 ledger kind rest

/-- The answers to a request are those to its hashes, in their order. -/
lemma serveOnto_events (ledger : Ledger) (kind : InventoryKind) (hashes : List Hash) :
    ∀ (h : Handler) (answers : List HandlerEvent),
      (h.serveOnto ledger kind hashes answers).2 =
        answers.reverse ++ (h.servings ledger kind hashes).flatMap Serving.events := by
  induction hashes with
  | nil =>
    intro h answers
    rw [serveOnto, servings, List.flatMap_nil, List.append_nil]
  | cons hash rest ih =>
    intro h answers
    rw [serveOnto, ih, servings, List.flatMap_cons, List.reverse_append, List.reverse_reverse,
      List.append_assoc]
    rfl

/-- Each hash of a request has one turn, in order. -/
lemma map_hash_servings (h : Handler) (ledger : Ledger) (kind : InventoryKind)
    (hashes : List Hash) : (h.servings ledger kind hashes).map Serving.hash = hashes := by
  induction hashes generalizing h with
  | nil => rfl
  | cons hash rest ih => rw [servings, List.map_cons, ih]

/-- The hashes of a request have their turns in a row. -/
lemma inRow_servings (h : Handler) (ledger : Ledger) (kind : InventoryKind) (hashes : List Hash) :
    Serving.InRow h.sent (h.servings ledger kind hashes) := by
  induction hashes generalizing h with
  | nil => trivial
  | cons hash rest ih =>
    refine ⟨rfl, ?_⟩
    have hrest := ih (h.serveHash ledger kind hash).1
    rw [serveHash_handler] at hrest
    rw [serveHash_handler]
    exact hrest

/-- The hashes that a turn goes through. -/
def Turn.servings (t : Turn) : List Serving :=
  match t.call with
  | .handle ledger _ (.message (.getData l)) =>
    if t.before.state = .ready then t.before.servings ledger l.kind l.hashes else []
  | _ => []

/-- The hashes that a call asks for have one turn each. -/
lemma Turn.map_hash_servings (t : Turn) :
    t.servings.map Serving.hash = t.call.requested t.before.state := by
  unfold Turn.servings
  split
  · next ledger moment l hcall =>
    rw [hcall]
    change _ = if t.before.state = .ready then l.hashes else []
    split
    · rw [Handler.map_hash_servings]
    · rfl
  · next hother =>
    unfold Call.requested
    split
    · next ledger moment m hcall =>
      cases m with
      | getData l => exact absurd hcall (hother ledger moment l)
      | _ => exact (ite_self _).symm
    · rfl

/-- The hashes that a call asks for have their turns in a row. -/
lemma Turn.inRow_servings (t : Turn) : Serving.InRow t.before.sent t.servings := by
  unfold Turn.servings
  split
  · split
    · exact Handler.inRow_servings ..
    · trivial
  · trivial

/-- All that a request brings is what is sent for its hashes. -/
lemma Turn.events_of_request {t : Turn} {ledger : Ledger} {moment : Moment} {l : HashList}
    (hcall : t.call = .handle ledger moment (.message (.getData l))) :
    (t.before.call t.call).2.events = t.servings.flatMap Serving.events := by
  unfold Turn.servings
  rw [hcall]
  change (t.before.handleMessage ledger moment (.getData l)).events =
    (if t.before.state = .ready then t.before.servings ledger l.kind l.hashes else []).flatMap _
  have hhandles := handles_handleMessage t.before ledger moment (.getData l)
  generalize t.before.handleMessage ledger moment (.getData l) = handled at hhandles
  cases hhandles with
  | ignored _ hstate =>
    rw [if_neg (by rw [hstate]; decide)]
    rfl
  | dispatched _ hready hcommand =>
    rw [if_pos hready]
    exact serveOnto_events ledger l.kind l.hashes t.before []
  | violated _ hgate =>
    have hunready : t.before.state ≠ .ready := by
      intro hready
      have hdispatch : gate t.before.state (Message.getData l).command = .dispatch := by
        rw [hready]
        rfl
      rw [hdispatch] at hgate
      exact GateDecision.noConfusion hgate
    rw [if_neg hunready]
    rfl

/-- All hashes that are asked for in the course of a run stand in a row. -/
lemma inRow_turns (h : Handler) (calls : List Call) :
    Serving.InRow h.sent ((h.turns calls).flatMap Turn.servings) := by
  induction calls generalizing h with
  | nil => trivial
  | cons c rest ih =>
    rw [turns, List.flatMap_cons, Serving.inRow_append]
    refine ⟨Turn.inRow_servings ⟨h, c⟩, ?_⟩
    rw [Turn.map_hash_servings]
    have hsent : (h.call c).1.sent = h.sent.addAll (c.requested h.state) := sent_call h c
    rw [← hsent]
    exact ih _

/-- In every run of a handler, whatever it is called with and over whatever ledgers: a request
brings what is sent for its hashes, one after the other, and for a hash that is entered the object
is sent, in full or as the peer's filter leaves it, if the ledger has one of the requested kind.  If
something is sent for one hash twice, in one request or in two, of one kind or of two, then in
between as many other hashes were entered as the set has places for, no two of them alike: twice the
places of the memory pool, but one at least, and no more than a machine word can count. -/
theorem object_sent_once (ledger : Ledger) (pendingTimeout : Nat) (calls : List Call) :
    let run := (start ledger pendingTimeout).turns calls
    let served := run.flatMap Turn.servings
    let capacity := max 1 (min (2 * ledger.mempoolCapacity) maxSetCapacity)
    (∀ t ∈ run, ∀ ledger moment l, t.call = .handle ledger moment (.message (.getData l)) →
      (t.before.call t.call).2.events = t.servings.flatMap Serving.events) ∧
    (∀ s ∈ served, s.events = if s.isEntered then
      ((s.before.objectMessage s.ledger s.kind s.hash).map HandlerEvent.send).toList else []) ∧
    ∀ (earlier : List Serving) (first : Serving) (between : List Serving) (second : Serving)
      (later : List Serving), served = earlier ++ first :: between ++ second :: later →
      first.hash = second.hash → first.events ≠ [] → second.events ≠ [] →
      ∃ others : List Hash,
        others.Sublist ((between.filter Serving.isEntered).map Serving.hash) ∧
        others.length = capacity ∧ others.Nodup ∧ first.hash ∉ others := by
  intro run served capacity
  refine ⟨fun t _ ledger moment l hcall => Turn.events_of_request hcall,
    fun s _ => s.events_eq, ?_⟩
  intro earlier first between second later hserved hhash hfirst hsecond
  have hrow : Serving.InRow (start ledger pendingTimeout).sent served := inRow_turns _ calls
  rw [hserved] at hrow
  have hempty : (start ledger pendingTimeout).sent.Remembers [] := FifoSet.remembers_ofCapacity _
  obtain ⟨others, hothers, hlength, hnodup, hother⟩ :=
    hrow.exists_others hempty hhash (Serving.isEntered_of_events hfirst)
      (Serving.isEntered_of_events hsecond)
  exact ⟨others, hothers, hlength.trans (max_comm _ _), hnodup, hother⟩

/-- With a single place in the set, a hash is served again as soon as another was asked for, and
that within one request. -/
theorem object_sent_again_when_driven_out :
    ∃ (ledger : Ledger) (calls : List Call) (earlier : List Serving) (first : Serving)
      (between : List Serving) (second : Serving) (later : List Serving),
      ((start ledger 1000).turns calls).flatMap Turn.servings =
        earlier ++ first :: between ++ second :: later ∧
      first.hash = second.hash ∧ first.events ≠ [] ∧ second.events ≠ [] ∧
      ∃ others : List Hash,
        others.Sublist ((between.filter Serving.isEntered).map Serving.hash) ∧
        others.length = 1 ∧ others.Nodup ∧ first.hash ∉ others := by
  let ledger : Ledger :=
    { MemoryLedger.toLedger ⟨[], none, [], [], [], [], none, 0⟩ with
      transaction := fun _ => some ⟨[]⟩ }
  let item (m : Message) : Call := .handle ledger ⟨0, 0⟩ (.message m)
  let introduction : Call := item (.version ⟨0, 0, 0, 1, "", []⟩)
  let a : Hash := FixedBytes.zero 32
  let b : Hash := ⟨List.replicate 32 1, rfl⟩
  let request : Call := item (.getData ⟨.transaction, [a, b, a]⟩)
  let calls : List Call := [introduction, item .verack, request]
  let ready : Handler := (start ledger 1000).callAll [introduction, item .verack]
  let first : Serving := ⟨ready, ledger, .transaction, a⟩
  let other : Serving := ⟨first.after, ledger, .transaction, b⟩
  let second : Serving := ⟨other.after, ledger, .transaction, a⟩
  have hserved : ((start ledger 1000).turns calls).flatMap Turn.servings =
      [] ++ first :: [other] ++ second :: [] := rfl
  -- What the set, with its one place, remembers after each of the hashes.
  have hnone : first.before.sent.Remembers [] := FifoSet.remembers_ofCapacity 0
  obtain ⟨hone, hplace, hfirstNew⟩ := Serving.remembers_after hnone
  have hfirstEntered : first.isEntered = true := hfirstNew.mpr List.not_mem_nil
  rw [if_pos hfirstEntered] at hone
  obtain ⟨htwo, hplace', hotherNew⟩ := Serving.remembers_after (s := other) hone
  have hotherEntered : other.isEntered = true := by
    refine hotherNew.mpr ?_
    change b ∉ [a].rtake first.after.sent.capacity
    rw [hplace]
    decide
  rw [if_pos hotherEntered] at htwo
  have hsecondEntered : second.isEntered = true := by
    refine (Serving.remembers_after (s := second) htwo).2.2.mpr ?_
    change a ∉ [a, b].rtake other.after.sent.capacity
    rw [hplace']
    change a ∉ [a, b].rtake first.after.sent.capacity
    rw [hplace]
    decide
  have hfirst : first.events ≠ [] := by
    rw [Serving.events_eq, if_pos hfirstEntered]
    exact List.cons_ne_nil _ _
  have hsecond : second.events ≠ [] := by
    rw [Serving.events_eq, if_pos hsecondEntered]
    exact List.cons_ne_nil _ _
  exact ⟨ledger, calls, _, _, _, _, _, hserved, rfl, hfirst, hsecond,
    (object_sent_once ledger 1000 calls).2.2 _ _ _ _ _ hserved rfl hfirst hsecond⟩

/-! ## What the set says -/

/-- A run adds the hashes that it goes through to the set, and no others. -/
lemma sent_callAll (h : Handler) (calls : List Call) :
    (h.callAll calls).sent =
      h.sent.addAll (((h.turns calls).flatMap Turn.servings).map Serving.hash) := by
  induction calls generalizing h with
  | nil => rfl
  | cons c rest ih =>
    have hrest : (h.callAll (c :: rest)).sent = ((h.call c).1.callAll rest).sent := rfl
    rw [hrest, ih, turns, List.flatMap_cons, List.map_append, Turn.map_hash_servings, sent_call,
      FifoSet.addAll, FifoSet.addAll, FifoSet.addAll, List.foldl_append]

/-- What is handed out as work has not been asked for. -/
lemma not_sent_of_handedOut {h : Handler} {c : Call} {x : Hash}
    (hwork : x ∈ (h.call c).2.handedOut) : h.sent.contains x = false := by
  have htracks := h.tracks_call c
  generalize (h.call c).1 = h', (h.call c).2 = a at htracks hwork
  cases htracks with
  | untouched hknown hsent hpending htimeout hannouncement hreports hdelivered hrequested =>
    rw [handedOut_eq_nil hreports] at hwork
    exact absurd hwork List.not_mem_nil
  | offered ledger moment l hready =>
    rw [(onInv_eq h ledger moment.now l).2] at hwork
    obtain ⟨hoffered, -⟩ := (mem_awaitEach moment.now x _ h.pending).mp hwork
    have hnews : h.isNews ledger l.kind x = true := List.of_mem_filter hoffered
    rw [isNews, Bool.and_eq_true, Bool.and_eq_true, Bool.and_eq_true] at hnews
    simpa using hnews.1.2
  | announced | delivered | requested | swept => exact absurd hwork List.not_mem_nil

/-- In every run the set holds the hashes that were entered last, as many as it has places for.  A
hash is in the set once its turn in a request is over, whether or not anything was sent for it.  And
as long as a hash is in the set, no ledger has it sent, it is not announced, and it is never handed
out as work. -/
theorem sent_set_is_of_requests (ledger : Ledger) (pendingTimeout : Nat) (calls : List Call) :
    let served := ((start ledger pendingTimeout).turns calls).flatMap Turn.servings
    let h := (start ledger pendingTimeout).callAll calls
    let capacity := max 1 (min (2 * ledger.mempoolCapacity) maxSetCapacity)
    (∀ hash, h.sent.contains hash = true ↔
      hash ∈ ((served.filter Serving.isEntered).map Serving.hash).rtake capacity) ∧
    (∀ s ∈ served, s.after.sent.contains s.hash = true) ∧
    ∀ hash, h.sent.contains hash = true →
      (∀ ledger' kind, (h.serveHash ledger' kind hash).2 = []) ∧
      (∀ kind, (h.relay kind hash).2 = none) ∧
      ∀ c, hash ∉ (h.call c).2.handedOut := by
  intro served h capacity
  have hempty : (start ledger pendingTimeout).sent.Remembers [] := FifoSet.remembers_ofCapacity _
  have hplaces : (start ledger pendingTimeout).sent.capacity = capacity := max_comm _ _
  have hentered : (served.filter Serving.isEntered).map Serving.hash =
      (start ledger pendingTimeout).sent.inserted (served.map Serving.hash) :=
    (inRow_turns _ calls).map_hash_filter
  obtain ⟨hremembers, hcapacity⟩ := hempty.addAll (served.map Serving.hash)
  rw [← sent_callAll, List.nil_append, ← hentered] at hremembers
  rw [← sent_callAll, hplaces] at hcapacity
  refine ⟨fun hash => ?_, fun s _ => ?_, fun hash hmem => ⟨fun ledger' kind => ?_,
    fun kind => ?_, fun c hwork => ?_⟩⟩
  · rw [← hcapacity]
    exact hremembers.contains_iff hash
  · rw [Serving.sent_after]
    exact FifoSet.contains_add _ _
  · have hold : Serving.isEntered ⟨h, ledger', kind, hash⟩ = false := by
      rw [Serving.isEntered, FifoSet.add_snd]
      exact congrArg Bool.not hmem
    have hnothing := Serving.events_eq ⟨h, ledger', kind, hash⟩
    rw [if_neg (Bool.eq_false_iff.mp hold)] at hnothing
    exact hnothing
  · rw [relay_snd, if_neg]
    rintro ⟨-, -, hsent, -⟩
    exact Bool.false_ne_true (hsent.symm.trans hmem)
  · exact Bool.false_ne_true ((not_sent_of_handedOut hwork).symm.trans hmem)

/-- A transaction asked for as a block is not sent, and is in the set nevertheless.  So it is not
sent when it is asked for as what it is, although the ledger has it, and it is not announced
either. -/
theorem transaction_withheld_after_request_for_block :
    ∃ (ledger : Ledger) (calls : List Call) (hash : Hash),
      let h := (start ledger 1000).callAll calls
      h.state = .ready ∧ h.version.any Version.isFullNode = true ∧
      (ledger.transaction hash).isSome = true ∧
      (∀ s ∈ ((start ledger 1000).turns calls).flatMap Turn.servings, s.events = []) ∧
      h.sent.contains hash = true ∧
      (h.call (.handle ledger ⟨0, 0⟩ (.message (.getData ⟨.transaction, [hash]⟩)))).2.events = [] ∧
      (h.relay .transaction hash).2 = none := by
  let ledger : Ledger :=
    { MemoryLedger.toLedger ⟨[], none, [], [], [], [], none, 16⟩ with
      transaction := fun _ => some ⟨[]⟩
      block := fun _ => none }
  let item (m : Message) : Call := .handle ledger ⟨0, 0⟩ (.message m)
  let introduction : Call := item (.version ⟨0, 0, 0, 1, "", [.fullNode 0]⟩)
  let hash : Hash := FixedBytes.zero 32
  let calls : List Call := [introduction, item .verack, item (.getData ⟨.block, [hash]⟩)]
  let ready : Handler := (start ledger 1000).callAll [introduction, item .verack]
  let asked : Serving := ⟨ready, ledger, .block, hash⟩
  have hserved : ((start ledger 1000).turns calls).flatMap Turn.servings = [asked] := rfl
  have hnothing : asked.events = [] := by
    rw [Serving.events_eq]
    exact ite_self _
  have hafter : (start ledger 1000).callAll calls = asked.after := rfl
  have hsent : asked.after.sent.contains hash = true := by
    rw [Serving.sent_after]
    exact FifoSet.contains_add _ _
  have hhandler : asked.after = { ready with sent := asked.after.sent } := by
    rw [Serving.sent_after]
    exact serveHash_handler ready ledger .block hash
  have hready : asked.after.state = .ready := by
    rw [hhandler]
    rfl
  refine ⟨ledger, calls, hash, ?_⟩
  rw [hafter, hserved]
  refine ⟨hready, by rw [hhandler]; decide, rfl, List.forall_mem_singleton.mpr hnothing, hsent,
    ?_, ?_⟩
  · let again : Serving := ⟨asked.after, ledger, .transaction, hash⟩
    let turn : Turn :=
      ⟨asked.after, .handle ledger ⟨0, 0⟩ (.message (.getData ⟨.transaction, [hash]⟩))⟩
    have hservings : turn.servings = [again] := if_pos hready
    have hold : again.isEntered = false := by
      rw [Serving.isEntered, FifoSet.add_snd]
      exact congrArg Bool.not hsent
    have hevents := Turn.events_of_request (t := turn) rfl
    rw [hservings, List.flatMap_singleton, Serving.events_eq,
      if_neg (Bool.eq_false_iff.mp hold)] at hevents
    exact hevents
  · rw [relay_snd, if_neg]
    rintro ⟨-, -, hunsent, -⟩
    exact Bool.false_ne_true (hunsent.symm.trans hsent)

end Handler

end PeerNet
