import Mathlib
import PeerNet.Proofs.Handler.Tracking

/-!
# What is announced, and what is not announced again

Which objects a handler announces is decided by two sets that forget their oldest hashes.  A
`Chronicle` keeps beside the handler every hash that was ever new to one of them, in order, and
forgets none.  In every run the sets are the ends of these records (`Chronicle.Faithful`); so
whether an object is announced depends on the last entries alone, and a hash that has been entered
has to be followed by as many others as a set has places for before it is announced.
-/

namespace PeerNet

namespace Handler

/-- The hash that an answer announces. -/
def Answer.announced? (a : Answer) : Option Hash :=
  match a.announcement with
  | some (.inv l) => l.hashes.head?
  | _ => none

/-- The hash that the peer is known to have from a call on: of an object that the call delivers, or
that it announces. -/
def learned? (h : Handler) (c : Call) : Option Hash :=
  ((c.delivered? h.state).map Inventory.hash).or (h.call c).2.announced?

/-- A call adds to what the peer knows only what it teaches the handler. -/
lemma known_call (h : Handler) (c : Call) :
    (h.call c).1.known = h.known.addAll (h.learned? c).toList := by
  rw [learned?]
  have htracks := h.tracks_call c
  generalize (h.call c).1 = h', (h.call c).2 = a at htracks ⊢
  cases htracks with
  | untouched hknown hsent hpending htimeout hannouncement hreports hdelivered hrequested =>
    rw [hknown, hdelivered, Answer.announced?, hannouncement]
    rfl
  | announced kind hash hready hnode hsent hnew => rfl
  | delivered inventory hdelivered =>
    rw [hdelivered]
    rfl
  | requested ledger moment l hready =>
    rw [Call.delivered?_getData]
    rfl
  | offered ledger moment l hready =>
    obtain ⟨⟨pending, hhandler⟩, -⟩ := onInv_spec h ledger moment.now l
    rw [hhandler, Call.delivered?_inv]
    rfl
  | swept ledger moment => rfl

/-- A call adds to what was sent just the hashes that it asks for. -/
lemma sent_call (h : Handler) (c : Call) :
    (h.call c).1.sent = h.sent.addAll (c.requested h.state) := by
  have htracks := h.tracks_call c
  generalize (h.call c).1 = h', (h.call c).2 = a at htracks ⊢
  cases htracks with
  | untouched hknown hsent hpending htimeout hannouncement hreports hdelivered hrequested =>
    rw [hsent, hrequested]
    rfl
  | announced kind hash hready hnode hsent hnew => rfl
  | delivered inventory hdelivered =>
    rw [Call.requested_of_delivered hdelivered]
    rfl
  | requested ledger moment l hready =>
    rw [Call.requested, if_pos hready]
    rfl
  | offered ledger moment l hready =>
    obtain ⟨⟨pending, hhandler⟩, -⟩ := onInv_spec h ledger moment.now l
    rw [hhandler, Call.requested_inv]
    rfl
  | swept ledger moment => rfl

/-- An object is announced to a full node at work that neither asked for it nor has it. -/
lemma relay_snd (h : Handler) (kind : InventoryKind) (hash : Hash) :
    (h.relay kind hash).2 =
      if h.state = .ready ∧ h.version.any Version.isFullNode = true ∧
          h.sent.contains hash = false ∧ h.known.contains hash = false
        then some (.inv ⟨kind, [hash]⟩) else none := by
  have hnew := h.known.add_snd hash
  rw [relay]
  split
  · next hopen =>
    obtain ⟨hready, hnode, hsent⟩ := hopen
    split
    · next known hadd =>
      rw [hadd] at hnew
      have hknown : h.known.contains hash = false := by simpa using hnew
      rw [if_pos ⟨hready, hnode, by simpa using hsent, hknown⟩]
    · next known hadd =>
      rw [hadd] at hnew
      have hknown : h.known.contains hash = true := by simpa using hnew
      rw [if_neg]
      rintro ⟨-, -, -, hunknown⟩
      exact Bool.false_ne_true (hunknown.symm.trans hknown)
  · next hclosed =>
    rw [if_neg]
    rintro ⟨hready, hnode, hsent, -⟩
    exact hclosed ⟨hready, hnode, by rw [hsent]; rfl⟩

/-! ## Chronicles -/

/-- A handler with the hashes that were ever new to the set of those that the peer has, and to the
set of those that it asked for, in order. -/
structure Chronicle where
  handler : Handler
  known : List Hash
  sent : List Hash

namespace Chronicle

/-- One call more. -/
def advance (ρ : Chronicle) (c : Call) : Chronicle where
  handler := (ρ.handler.call c).1
  known := ρ.known ++ ρ.handler.known.inserted (ρ.handler.learned? c).toList
  sent := ρ.sent ++ ρ.handler.sent.inserted (c.requested ρ.handler.state)

/-- What calls on a new handler lead to. -/
def after (ledger : Ledger) (pendingTimeout : Nat) (calls : List Call) : Chronicle :=
  calls.foldl advance ⟨Handler.start ledger pendingTimeout, [], []⟩

/-- The sets of the handler are the ends of the records. -/
structure Faithful (capacity : Nat) (ρ : Chronicle) : Prop where
  known : ρ.handler.known.Remembers ρ.known
  sent : ρ.handler.sent.Remembers ρ.sent
  capacity_known : ρ.handler.known.capacity = capacity
  capacity_sent : ρ.handler.sent.capacity = capacity

variable {capacity : Nat} {ρ : Chronicle}

/-- A call keeps both sets at the ends of the records. -/
lemma Faithful.advance (h : ρ.Faithful capacity) (c : Call) : (ρ.advance c).Faithful capacity := by
  obtain ⟨hknown, hcapacityKnown⟩ := h.known.addAll (ρ.handler.learned? c).toList
  obtain ⟨hsent, hcapacitySent⟩ := h.sent.addAll (c.requested ρ.handler.state)
  rw [← known_call] at hknown hcapacityKnown
  rw [← sent_call] at hsent hcapacitySent
  exact ⟨hknown, hsent, hcapacityKnown.trans h.capacity_known, hcapacitySent.trans h.capacity_sent⟩

/-- After all calls both sets are the ends of the records, for the size that the ledger's pool gives
them. -/
lemma faithful_after (ledger : Ledger) (pendingTimeout : Nat) (calls : List Call) :
    (after ledger pendingTimeout calls).Faithful
      (max 1 (min (2 * ledger.mempoolCapacity) maxSetCapacity)) := by
  induction calls using List.reverseRecOn with
  | nil =>
    exact ⟨FifoSet.remembers_ofCapacity _, FifoSet.remembers_ofCapacity _, max_comm _ _,
      max_comm _ _⟩
  | append_singleton calls c ih =>
    rw [after, List.foldl_append]
    exact ih.advance c

/-- The hash that the peer is known to have from a call on is at the end of the record. -/
lemma Faithful.mem_of_learned (h : ρ.Faithful capacity) {c : Call} {hash : Hash}
    (hlearned : ρ.handler.learned? c = some hash) :
    hash ∈ (ρ.advance c).known.rtake capacity := by
  have hnext := h.advance c
  have hknown : (ρ.advance c).handler.known = (ρ.handler.known.add hash).1 := by
    refine (known_call ρ.handler c).trans ?_
    rw [hlearned]
    rfl
  have hcontains : (ρ.advance c).handler.known.contains hash = true := by
    rw [hknown]
    exact FifoSet.contains_add _ _
  rw [hnext.known.contains_iff, hnext.capacity_known] at hcontains
  exact hcontains

/-- What is announced is a new entry. -/
lemma advance_relay_known {kind : InventoryKind} {hash : Hash}
    (hannounced : (ρ.handler.relay kind hash).2 ≠ none) :
    (ρ.advance (.relay kind hash)).known = ρ.known ++ [hash] := by
  have hsnd := ρ.handler.relay_snd kind hash
  split_ifs at hsnd with hopen
  · have hlearned : ρ.handler.learned? (.relay kind hash) = some hash :=
      congrArg (fun m => Answer.announced? ⟨[], [], m, none⟩) hsnd
    have hnew : (ρ.handler.known.add hash).2 = true := by
      rw [FifoSet.add_snd, hopen.2.2.2, Bool.not_false]
    change ρ.known ++ ρ.handler.known.inserted (ρ.handler.learned? (.relay kind hash)).toList = _
    rw [hlearned, Option.toList_some, FifoSet.inserted, if_pos hnew, FifoSet.inserted,
      List.append_nil]
  · exact absurd hsnd hannounced

lemma after_append (ledger : Ledger) (pendingTimeout : Nat) (calls more : List Call) :
    after ledger pendingTimeout (calls ++ more) =
      more.foldl advance (after ledger pendingTimeout calls) := List.foldl_append ..

/-- Nothing is ever taken off the record. -/
lemma prefix_foldl_advance (ρ : Chronicle) (more : List Call) :
    ρ.known <+: (more.foldl advance ρ).known := by
  induction more generalizing ρ with
  | nil => exact List.prefix_rfl
  | cons c more ih => exact (List.prefix_append ..).trans (ih (ρ.advance c))

/-- The sets of a handler are the last entries of the records, as many as twice the places of the
memory pool, but one at least, and no more than a machine word can count.  An object is announced
exactly if the handshake is complete, the peer is a full node, and the hash is in neither set.  So
there are as many entries of other hashes, no two of them alike, between the latest entry of a hash
among those that the peer has and an announcement of it.  An announcement is such an entry, a
delivery leaves the hash among the last of them, and no entry is ever lost. -/
theorem announces_unless_recent (ledger : Ledger) (pendingTimeout : Nat) (calls : List Call)
    (kind : InventoryKind) (hash : Hash) :
    let ρ := after ledger pendingTimeout calls
    let capacity := max 1 (min (2 * ledger.mempoolCapacity) maxSetCapacity)
    (ρ.handler.known.order.toList = ρ.known.rtake capacity ∧
      ρ.handler.sent.order.toList = ρ.sent.rtake capacity) ∧
    (ρ.handler.relay kind hash).2 =
      (if ρ.handler.state = .ready ∧ ρ.handler.version.any Version.isFullNode = true ∧
          hash ∉ ρ.sent.rtake capacity ∧ hash ∉ ρ.known.rtake capacity
        then some (.inv ⟨kind, [hash]⟩) else none) ∧
    (∀ earlier later, ρ.known = earlier ++ hash :: later → hash ∉ later →
      (ρ.handler.relay kind hash).2 ≠ none →
      ∃ others, others <:+ later ∧ others.length = capacity ∧ others.Nodup ∧ hash ∉ others) ∧
    ((ρ.handler.relay kind hash).2 ≠ none →
      (ρ.advance (.relay kind hash)).known = ρ.known ++ [hash]) ∧
    (∀ c, ρ.handler.learned? c = some hash → hash ∈ (ρ.advance c).known.rtake capacity) ∧
    ∀ more, ρ.known <+: (after ledger pendingTimeout (calls ++ more)).known := by
  intro ρ capacity
  have hfaithful : ρ.Faithful capacity := faithful_after ledger pendingTimeout calls
  have hknown : ∀ a, ρ.handler.known.contains a = true ↔ a ∈ ρ.known.rtake capacity := by
    rw [← hfaithful.capacity_known]
    exact hfaithful.known.contains_iff
  have hsent : ∀ a, ρ.handler.sent.contains a = true ↔ a ∈ ρ.sent.rtake capacity := by
    rw [← hfaithful.capacity_sent]
    exact hfaithful.sent.contains_iff
  have hanswer : (ρ.handler.relay kind hash).2 =
      (if ρ.handler.state = .ready ∧ ρ.handler.version.any Version.isFullNode = true ∧
          hash ∉ ρ.sent.rtake capacity ∧ hash ∉ ρ.known.rtake capacity
        then some (.inv ⟨kind, [hash]⟩) else none) := by
    refine (ρ.handler.relay_snd kind hash).trans (if_congr ?_ rfl rfl)
    rw [← hknown, ← hsent, Bool.not_eq_true, Bool.not_eq_true]
  refine ⟨⟨?_, ?_⟩, hanswer, ?_, advance_relay_known, fun c => hfaithful.mem_of_learned,
    fun more => ?_⟩
  · rw [hfaithful.known.toList_order, hfaithful.capacity_known]
  · rw [hfaithful.sent.toList_order, hfaithful.capacity_sent]
  · intro earlier later hlog hlatest hannounced
    rw [hanswer] at hannounced
    have hnew : hash ∉ ρ.known.rtake capacity := by
      by_contra hrecent
      exact hannounced (if_neg fun hopen => hopen.2.2.2 hrecent)
    have hspaced : FifoSet.Spaced capacity ρ.known := by
      rw [← hfaithful.capacity_known]
      exact hfaithful.known.spaced
    exact hspaced.exists_others hlog hlatest hnew
  · rw [after_append]
    exact prefix_foldl_advance _ more

end Chronicle

end Handler

end PeerNet
