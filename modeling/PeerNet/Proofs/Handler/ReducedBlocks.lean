import PeerNet.Proofs.Bloom.Filter
import PeerNet.Proofs.Handler.Filter
import PeerNet.Proofs.Handler.Serving

/-!
# What a light client sees of a block

A peer that loads a filter is sent blocks reduced to the hashes of their transactions, with a flag
for each transaction that the filter accepts (`BloomFilter.Shows`), whether it asks for blocks by
index or by hash.  Adding elements keeps a filter in place and only ever makes it accept more.  So a
light client misses no transaction that its filter accepted from the start or that it added since,
at whatever place of whatever block.
-/

namespace PeerNet

/-- How a block is shown to a peer with a filter. -/
structure BloomFilter.Shows (f : BloomFilter) (b : Block) (mb : MerkleBlock) : Prop where
  header_eq : mb.header = b.header
  txCount_eq : mb.txCount = UInt32.ofNat b.transactions.length
  hashes_eq : mb.hashes = b.transactions.map Transaction.hash
  isMatched_eq : ∀ i (hi : i < b.transactions.length),
    mb.isMatched i = f.check b.transactions[i].hash.toList
  not_isMatched : ∀ i, b.transactions.length ≤ i → mb.isMatched i = false

/-- A reduced block shows all hashes, and flags the transactions that the filter accepts. -/
lemma BloomFilter.shows_reduce (f : BloomFilter) (b : Block) : f.Shows b (f.reduce b) where
  header_eq := rfl
  txCount_eq := rfl
  hashes_eq := rfl
  isMatched_eq i hi := by
    rw [MerkleBlock.isMatched_reduce, List.getElem?_eq_getElem hi]
    rfl
  not_isMatched i hi := by
    rw [MerkleBlock.isMatched_reduce, List.getElem?_eq_none hi]
    rfl

/-- Whether a message asks for blocks, by index or by hash. -/
def Message.isForBlocks : Message → Bool
  | .getBlockData _ => true
  | .getData l => l.kind == .block
  | _ => false

namespace Handler

/-! ## The blocks of a request -/

/-- The blocks that a request has sent: those along the chain, as far as the ledger has them, or
those with a hash that was not asked for before, if the ledger has them. -/
def blocksFound (h : Handler) (ledger : Ledger) : Message → List Block
  | .getBlockData range => blocksFrom ledger range.start (min range.count.toNat maxBlockDataCount)
  | .getData l => ((h.servings ledger l.kind l.hashes).filter Serving.isEntered).filterMap
      fun s => ledger.block s.hash
  | _ => []

/-- Going through the hashes of blocks brings the blocks found, each as the peer sees it. -/
lemma flatMap_events_servings (ledger : Ledger) (hashes : List Hash) (h : Handler) :
    (h.servings ledger .block hashes).flatMap Serving.events =
      (((h.servings ledger .block hashes).filter Serving.isEntered).filterMap
        fun s => ledger.block s.hash).map fun b => .send (h.blockMessage b) := by
  induction hashes generalizing h with
  | nil => rfl
  | cons hash rest ih =>
    let s : Serving := ⟨h, ledger, .block, hash⟩
    have hrest := ih (h.serveHash ledger .block hash).1
    rw [serveHash_handler] at hrest
    have hservings : h.servings ledger .block (hash :: rest) =
        s :: ({ h with sent := (h.sent.add hash).1 } : Handler).servings ledger .block rest := by
      rw [servings, serveHash_handler]
    rw [hservings, List.flatMap_cons, hrest, List.filter_cons, Serving.events_eq]
    change (if s.isEntered then (((ledger.block hash).map h.blockMessage).map _).toList else []) ++
      _ = _
    split
    · rw [List.filterMap_cons, show s.hash = hash from rfl]
      cases ledger.block hash <;> rfl
    · rfl

/-- A request for blocks brings the blocks that are found and nothing else. -/
lemma events_of_request_for_blocks {h : Handler} (hready : h.state = .ready) (ledger : Ledger)
    (moment : Moment) {request : Message} (hrequest : request.isForBlocks = true) :
    (h.call (.handle ledger moment (.message request))).2.events =
      (h.blocksFound ledger request).map fun b => .send (h.blockMessage b) := by
  cases request with
  | getBlockData range =>
    change (h.handleMessage ledger moment (.getBlockData range)).events = _
    unfold handleMessage
    rw [hready]
    rfl
  | getData l =>
    obtain ⟨kind, hashes⟩ := l
    obtain rfl : kind = .block := by simpa [Message.isForBlocks] using hrequest
    let t : Turn := ⟨h, .handle ledger moment (.message (.getData ⟨.block, hashes⟩))⟩
    have hservings : t.servings = h.servings ledger .block hashes := if_pos hready
    rw [Turn.events_of_request (t := t) rfl, hservings]
    exact flatMap_events_servings ledger hashes h
  | _ => exact Bool.noConfusion hrequest

/-! ## A filter in use -/

/-- Whether a call replaces the filter, or puts it away. -/
def Call.resetsFilter : Call → Bool
  | .handle _ _ (.message (.filterLoad _)) | .handle _ _ (.message .filterClear) => true
  | _ => false

/-- The element that a call adds to the filter, if it adds one. -/
def Call.added? : Call → Option Bytes
  | .handle _ _ (.message (.filterAdd f)) => some f.data
  | _ => none

/-- A call that sets no filter and takes none away adds at most an element to the one there is. -/
lemma refilter_of_not_resetsFilter {c : Call} (hc : c.resetsFilter = false) (filter : BloomFilter) :
    c.refilter .ready (some filter) = some (filter.addAll c.added?.toList) := by
  cases c with
  | handle ledger moment item =>
    cases item with
    | message m =>
      cases m with
      | filterLoad | filterClear => exact Bool.noConfusion hc
      | _ => rfl
    | timer => rfl
  | _ => rfl

/-- A handler that is at work in the end has been at work since it began. -/
lemma state_call_of_ready {h : Handler} {c : Call} {rest : List Call} (hready : h.state = .ready)
    (hend : ((h.call c).1.callAll rest).state = .ready) : (h.call c).1.state = .ready := by
  have hrise : ∀ (calls : List Call) (h : Handler),
      h.state.rank ≤ (h.callAll calls).state.rank := by
    intro calls
    induction calls with
    | nil => exact fun h => le_rfl
    | cons c rest ih => exact fun h => (h.obeys c).forward.trans (ih (h.call c).1)
  have hlow := (h.obeys c).forward
  have hhigh := hrise rest (h.call c).1
  rw [hready] at hlow
  rw [hend] at hhigh
  generalize (h.call c).1.state = s at hlow hhigh
  cases s with
  | ready => rfl
  | awaitingVersion | awaitingVerack => exact absurd hlow (by decide)
  | stopped => exact absurd hhigh (by decide)

/-- Unless it is replaced or put away, a filter takes up all elements that are added. -/
lemma filter_callAll (calls : List Call) {h : Handler} {filter : BloomFilter}
    (hready : h.state = .ready) (hend : (h.callAll calls).state = .ready)
    (hfilter : h.filter = some filter) (hcalls : ∀ c ∈ calls, c.resetsFilter = false) :
    (h.callAll calls).filter = some (filter.addAll (calls.filterMap Call.added?)) := by
  induction calls generalizing h filter with
  | nil => exact hfilter
  | cons c rest ih =>
    obtain ⟨hc, hrest⟩ := List.forall_mem_cons.mp hcalls
    have hnext : (h.call c).1.filter = some (filter.addAll c.added?.toList) := by
      rw [(h.refilters_call c).filter_eq, hready, hfilter, refilter_of_not_resetsFilter hc]
    have hall := ih (state_call_of_ready hready hend) hend hnext hrest
    change ((h.call c).1.callAll rest).filter = _
    rw [hall, BloomFilter.addAll, BloomFilter.addAll, ← List.foldl_append, List.filterMap_cons]
    cases c.added? <;> rfl

/-- A handler at work that takes a filter with bits, and no other since, answers a request for
blocks, by index or by hash, with reduced blocks only, one for each block that is found.  Each names
all transactions in order, and flags those that the present filter accepts and nothing past the
last; among them are all that the filter accepted as it was loaded, and all whose hash was added.
After its end the handler sends nothing.  A handler without a filter sends the blocks themselves. -/
theorem light_client_misses_nothing (h : Handler) (hready : h.state = .ready) (f : FilterLoad)
    (hf : f.filter ≠ []) (ledger₀ : Ledger) (moment₀ : Moment) (calls : List Call)
    (hcalls : ∀ c ∈ calls, c.resetsFilter = false) :
    let now := h.callAll (.handle ledger₀ moment₀ (.message (.filterLoad f)) :: calls)
    let added := calls.filterMap Call.added?
    (∀ (ledger : Ledger) (moment : Moment) (request : Message), request.isForBlocks = true →
      let events := (now.call (.handle ledger moment (.message request))).2.events
      (now.state ≠ .ready → ∀ m, .send m ∉ events) ∧
      (now.state = .ready → ∃ filter, now.filter = some filter ∧
        List.Forall₂
          (fun b e => ∃ mb, e = .send (.merkleBlock mb) ∧ filter.Shows b mb ∧
            ∀ i (hi : i < b.transactions.length),
              (BloomFilter.ofLoad f).check b.transactions[i].hash.toList = true ∨
                b.transactions[i].hash.toList ∈ added → mb.isMatched i = true)
          (now.blocksFound ledger request) events)) ∧
    ∀ h' : Handler, h'.state = .ready → h'.filter = none →
      ∀ (ledger : Ledger) (moment : Moment) (request : Message), request.isForBlocks = true →
        (h'.call (.handle ledger moment (.message request))).2.events =
          (h'.blocksFound ledger request).map fun b => .send (.block b) := by
  intro now added
  refine ⟨fun ledger moment request hrequest => ⟨fun hend => ?_, fun hend => ?_⟩, ?_⟩
  · exact ((now.obeys _).reserved hend).2.2
  · let loaded := (h.call (.handle ledger₀ moment₀ (.message (.filterLoad f)))).1
    have hloaded : loaded.filter = some (.ofLoad f) := by
      rw [(h.refilters_call _).filter_eq]
      exact if_pos hready
    have hnow : now.filter = some ((BloomFilter.ofLoad f).addAll added) :=
      filter_callAll calls (state_call_of_ready hready hend) hend hloaded hcalls
    refine ⟨_, hnow, ?_⟩
    rw [events_of_request_for_blocks hend ledger moment hrequest, List.forall₂_map_right_iff,
      List.forall₂_same]
    intro b _
    have hshows := ((BloomFilter.ofLoad f).addAll added).shows_reduce b
    refine ⟨_, ?_, hshows, fun i hi hwanted => ?_⟩
    · rw [blockMessage, hnow]
    · rw [hshows.isMatched_eq i hi]
      exact BloomFilter.check_addAll hf added hwanted
  · intro h' hready' hnone ledger moment request hrequest
    rw [events_of_request_for_blocks hready' ledger moment hrequest]
    refine List.map_congr_left fun b _ => ?_
    rw [blockMessage, hnone]

/-- A transaction whose hash was added to an empty filter is flagged. -/
theorem light_client_misses_nothing_after_filterAdd :
    ∃ (ledger : Ledger) (h : Handler) (f : FilterLoad) (tx : Transaction) (mb : MerkleBlock),
      h.state = .ready ∧ (BloomFilter.ofLoad f).check tx.hash.toList = false ∧
      ((h.callAll [.handle ledger ⟨0, 0⟩ (.message (.filterLoad f)),
        .handle ledger ⟨0, 0⟩ (.message (.filterAdd ⟨tx.hash.toList⟩))]).call
          (.handle ledger ⟨0, 0⟩ (.message (.getBlockData ⟨0, 1⟩)))).2.events =
        [.send (.merkleBlock mb)] ∧
      mb.hashes = [tx.hash] ∧ mb.isMatched 0 = true ∧ mb.isMatched 1 = false := by
  let tx : Transaction := ⟨[]⟩
  let b : Block := { MemoryLedger.plainBlock default 0 0 with transactions := [tx] }
  let ledger : Ledger :=
    { MemoryLedger.toLedger ⟨[], none, [], [], [], [], none, 16⟩ with blockAt := fun _ => some b }
  let h : Handler := { start ledger 1000 with state := .ready }
  let f : FilterLoad := ⟨[0], 1, 0⟩
  let add : Call := .handle ledger ⟨0, 0⟩ (.message (.filterAdd ⟨tx.hash.toList⟩))
  obtain ⟨hserved, -⟩ := light_client_misses_nothing h rfl f (List.cons_ne_nil _ _) ledger ⟨0, 0⟩
    [add] (List.forall_mem_singleton.mpr rfl)
  obtain ⟨filter, -, hblocks⟩ := (hserved ledger ⟨0, 0⟩ (.getBlockData ⟨0, 1⟩) rfl).2 rfl
  -- The ledger has one block at every index, so a request for one finds it.
  change List.Forall₂ _ [b] _ at hblocks
  obtain ⟨e, rest, ⟨mb, rfl, hshows, hflagged⟩, hrest, hevents⟩ :=
    List.forall₂_cons_left_iff.mp hblocks
  obtain rfl := List.forall₂_nil_left_iff.mp hrest
  have hempty : (BloomFilter.ofLoad f).check tx.hash.toList = false := by
    refine Bool.eq_false_iff.mpr fun hcheck => ?_
    have hset := (BloomFilter.check_eq_true_iff.mp hcheck).2 _ List.mem_cons_self
    rw [BloomFilter.getBit_eq, Option.any_eq_true] at hset
    obtain ⟨byte, hbyte, hbit⟩ := hset
    rw [List.mem_singleton.mp (List.mem_of_getElem? hbyte)] at hbit
    exact Bool.noConfusion ((Nat.zero_testBit _).symm.trans hbit)
  refine ⟨ledger, h, f, tx, mb, rfl, hempty, hevents, hshows.hashes_eq, ?_, ?_⟩
  · exact hflagged 0 Nat.zero_lt_one (.inr List.mem_cons_self)
  · exact hshows.not_isMatched 1 le_rfl

end Handler

end PeerNet
