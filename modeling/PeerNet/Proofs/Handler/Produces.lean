import PeerNet.Proofs.Handler.Step

/-!
# What work on a message brings

`Handler.Produces` lists the events that a handler at work can answer a message with, each with
where it comes from: hashes and headers along the chain within their caps, objects that the ledger
has, the pool, a pong, and what is passed on.  Only the three commands about the filter bring news
of the filter.

What is said later about everything that a handler sends goes through this list and never opens the
walks along the chain again.
-/

namespace PeerNet

/-- Whether a command is about the peer's filter. -/
def Command.isOfFilter : Command → Bool
  | .filterLoad | .filterAdd | .filterClear => true
  | _ => false

namespace Handler

/-! ## Walks along the chain -/

section Walk

variable {α : Type} {find : Nat → Option α}

/-- A walk finds no more than it looks for. -/
lemma length_collect_le (start count : Nat) : (collect find start count).length ≤ count := by
  induction count generalizing start with
  | zero => exact le_rfl
  | succ count ih =>
    rw [collect]
    split
    · exact Nat.succ_le_succ (ih (start + 1))
    · exact Nat.zero_le _

/-- Whatever a walk finds is at some place. -/
lemma exists_of_mem_collect {start count : Nat} {a : α} (h : a ∈ collect find start count) :
    ∃ n, find n = some a := by
  induction count generalizing start with
  | zero => exact absurd h List.not_mem_nil
  | succ count ih =>
    rw [collect] at h
    split at h
    · next b hb =>
      rcases List.mem_cons.mp h with rfl | hrest
      · exact ⟨start, hb⟩
      · exact ih hrest
    · exact absurd h List.not_mem_nil

end Walk

/-- No count asks for more than the cap. -/
lemma clampCount_le (count : Int16) (cap : Nat) : clampCount count cap ≤ cap := by
  rw [clampCount]
  split_ifs with hcount
  · exact le_rfl
  · omega

variable {h : Handler} {ledger : Ledger} {moment : Moment}

/-- Headers that are served are those of the ledger. -/
lemma exists_of_mem_headersAfter {start : UInt32} {count : Nat} {header : Header}
    (hheader : header ∈ headersAfter ledger start count) :
    ∃ hash, ledger.header hash = some header := by
  obtain ⟨n, hn⟩ := exists_of_mem_collect hheader
  obtain ⟨i, -, hn⟩ := Option.bind_eq_some_iff.mp hn
  obtain ⟨hash, -, hfound⟩ := Option.bind_eq_some_iff.mp hn
  exact ⟨hash, hfound⟩

/-- Blocks that are served are those of the ledger. -/
lemma exists_of_mem_blocksFrom {start : UInt32} {count : Nat} {b : Block}
    (hb : b ∈ blocksFrom ledger start count) : ∃ i, ledger.blockAt i = some b := by
  obtain ⟨n, hn⟩ := exists_of_mem_collect hb
  obtain ⟨i, -, hfound⟩ := Option.bind_eq_some_iff.mp hn
  exact ⟨i, hfound⟩

/-! ## Work -/

/-- What work on a message can bring. -/
inductive Produces (h : Handler) (ledger : Ledger) (moment : Moment) (m : Message) :
    HandlerEvent → Prop
  | hashes {hs : List Hash} (hcount : hs.length ≤ HashList.maxCount) :
    Produces h ledger moment m (.send (.inv ⟨.block, hs⟩))
  | headers {hs : List Header} (hcount : hs.length ≤ Header.maxCount)
    (hknown : ∀ x ∈ hs, ∃ hash, ledger.header hash = some x) :
    Produces h ledger moment m (.send (.headers hs))
  | blockAt {i : UInt32} {b : Block} (hb : ledger.blockAt i = some b) :
    Produces h ledger moment m (.send (h.blockMessage b))
  | object {kind : InventoryKind} {hash : Hash} {object : Message}
    (hobject : h.objectMessage ledger kind hash = some object) :
    Produces h ledger moment m (.send object)
  | pool {l : HashList} (hl : l ∈ HashList.grouped .transaction ledger.mempool) :
    Produces h ledger moment m (.send (.inv l))
  | pong (nonce : UInt32) :
    Produces h ledger moment m (.send (.pong ⟨ledger.height, moment.unixTime, nonce⟩))
  | addressRequest : Produces h ledger moment m .addressRequest
  | peers (records : List AddressRecord) : Produces h ledger moment m (.peers records)
  | relay (inventory : Inventory) : Produces h ledger moment m (.relay inventory)
  | remoteHeight (height : UInt32) : Produces h ledger moment m (.remoteHeight height)
  | filterChanged (f : Option BloomFilter) (hm : m.command.isOfFilter = true) :
    Produces h ledger moment m (.filterChanged f)

/-- A walk along the chain is answered by an announcement, if at all. -/
lemma produces_onGetBlocks (m : Message) (walk : ChainWalk) :
    ∀ e ∈ onGetBlocks ledger walk, h.Produces ledger moment m e := by
  intro e he
  rw [onGetBlocks] at he
  split at he
  · exact absurd he List.not_mem_nil
  · next start _ =>
    split at he
    · exact absurd he List.not_mem_nil
    · rw [List.mem_singleton.mp he]
      exact .hashes ((length_collect_le _ _).trans (clampCount_le _ _))

/-- A walk along the headers is answered by headers of the ledger, if at all. -/
lemma produces_onGetHeaders (m : Message) (walk : ChainWalk) :
    ∀ e ∈ onGetHeaders ledger walk, h.Produces ledger moment m e := by
  intro e he
  rw [onGetHeaders] at he
  split at he
  · exact absurd he List.not_mem_nil
  · next start _ =>
    split at he
    · exact absurd he List.not_mem_nil
    · rw [List.mem_singleton.mp he]
      exact .headers ((length_collect_le _ _).trans (clampCount_le _ _))
        fun x hx => exists_of_mem_headersAfter hx

/-- Which hashes were asked for before has no part in what an object looks like. -/
lemma objectMessage_with_sent (h : Handler) (sent : FifoSet Hash) (ledger : Ledger)
    (kind : InventoryKind) (hash : Hash) :
    ({ h with sent } : Handler).objectMessage ledger kind hash =
      h.objectMessage ledger kind hash := by
  cases kind <;> rfl

/-- A hash is answered by the object that it names, if at all. -/
lemma exists_of_mem_serveHash {kind : InventoryKind} {hash : Hash} {e : HandlerEvent}
    (he : e ∈ (h.serveHash ledger kind hash).2) :
    ∃ m, h.objectMessage ledger kind hash = some m ∧ e = .send m := by
  rw [serveHash] at he
  split at he
  · exact absurd he List.not_mem_nil
  · next sent _ =>
    obtain ⟨m, hm, rfl⟩ := Option.map_eq_some_iff.mp (Option.mem_toList.mp he)
    rw [objectMessage_with_sent] at hm
    exact ⟨m, hm, rfl⟩

/-- What a request brings are objects that the ledger has. -/
lemma mem_serveOnto (ledger : Ledger) (kind : InventoryKind) (hashes : List Hash) :
    ∀ (h : Handler) (answers : List HandlerEvent),
      ∀ e ∈ (h.serveOnto ledger kind hashes answers).2, e ∈ answers ∨
        ∃ hash m, h.objectMessage ledger kind hash = some m ∧ e = .send m := by
  induction hashes with
  | nil => exact fun h answers e he => .inl (List.mem_reverse.mp he)
  | cons hash rest ih =>
    intro h answers e he
    obtain ⟨⟨sent, hsent⟩, -⟩ := serveHash_spec h ledger kind hash
    rcases ih (h.serveHash ledger kind hash).1 _ e he with he | ⟨hash', m, hm, rfl⟩
    · rcases List.mem_append.mp he with he | he
      · exact .inr ⟨hash, exists_of_mem_serveHash (List.mem_reverse.mp he)⟩
      · exact .inl he
    · rw [hsent, objectMessage_with_sent] at hm
      exact .inr ⟨hash', m, hm, rfl⟩

/-- A handler at work brings nothing but what is on the list. -/
lemma produces_dispatch (h : Handler) (ledger : Ledger) (moment : Moment) (m : Message) :
    ∀ e ∈ (h.dispatch ledger moment m).events, h.Produces ledger moment m e := by
  cases m with
  | addr records =>
    intro e he
    change e ∈ suggestPeers records at he
    rw [suggestPeers] at he
    split at he
    · exact absurd he List.not_mem_nil
    · rw [List.mem_singleton.mp he]
      exact .peers _
  | getBlocks walk => exact produces_onGetBlocks _ walk
  | getHeaders walk => exact produces_onGetHeaders _ walk
  | getBlockData range =>
    intro e he
    obtain ⟨b, hb, rfl⟩ := List.mem_map.mp he
    obtain ⟨i, hi⟩ := exists_of_mem_blocksFrom hb
    exact .blockAt hi
  | mempool =>
    intro e he
    obtain ⟨l, hl, rfl⟩ := List.mem_map.mp he
    exact .pool hl
  | getData l =>
    intro e he
    rcases mem_serveOnto ledger l.kind l.hashes h [] e he with hnone | ⟨hash, m, hm, rfl⟩
    · exact absurd hnone List.not_mem_nil
    · exact .object hm
  | inv l =>
    have hevents : (h.dispatch ledger moment (.inv l)).events = [] :=
      (onInv_spec h ledger moment.now l).2
    rw [hevents]
    exact List.forall_mem_nil _
  | transaction tx =>
    rw [dispatch]
    split
    · exact List.forall_mem_nil _
    · exact List.forall_mem_singleton.mpr (.relay _)
  | filterAdd f =>
    rw [dispatch, onFilterAdd]
    split
    · exact List.forall_mem_nil _
    · exact List.forall_mem_singleton.mpr (.filterChanged _ rfl)
  | ping p =>
    exact List.forall_mem_cons.mpr ⟨.remoteHeight _, List.forall_mem_singleton.mpr (.pong _)⟩
  | pong p => exact List.forall_mem_singleton.mpr (.remoteHeight _)
  | getAddr => exact List.forall_mem_singleton.mpr .addressRequest
  | block b => exact List.forall_mem_singleton.mpr (.relay _)
  | consensus c => exact List.forall_mem_singleton.mpr (.relay _)
  | filterLoad f => exact List.forall_mem_singleton.mpr (.filterChanged _ rfl)
  | filterClear => exact List.forall_mem_singleton.mpr (.filterChanged _ rfl)
  | headers hs | version v | verack | disconnect d | notFound l | reject bytes | merkleBlock m
  | alert bytes => exact List.forall_mem_nil _

end Handler

end PeerNet
