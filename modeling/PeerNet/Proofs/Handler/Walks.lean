import PeerNet.Proofs.Handler.Grammar
import PeerNet.Proofs.Handler.Produces
import PeerNet.Proofs.Ledger.Chain

/-!
# Three walks along one chain

Three requests are answered by a walk along the chain: for hashes, for headers and for blocks.  Each
walk has its own start, its own cap and its own way to notice that it is at the end.  Over a ledger
that is a chain these differences vanish: all three find the blocks that stand one after the other
from an index on (`Handler.blocksOn`), and show of each its hash, its header or the block as a
whole.

What is found are the blocks at consecutive indices, as many as the walk may have and none above the
height (`Handler.lists_blocksOn`).  The indices are counted without a bound, so that a walk which
would leave the range of indices ends there and does not begin anew.
-/

namespace PeerNet

namespace Handler

/-! ## Walks -/

section Walk

variable {α β : Type}

/-- A walk that shows something of what another finds finds as much. -/
lemma collect_map (f : α → β) (find : Nat → Option α) (start count : Nat) :
    collect (fun n => (find n).map f) start count = (collect find start count).map f := by
  induction count generalizing start with
  | zero => rfl
  | succ count ih =>
    rw [collect, collect]
    cases find start with
    | none => rfl
    | some a =>
      rw [Option.map_some, List.map_cons]
      exact congrArg (f a :: ·) (ih (start + 1))

/-- A shorter walk finds the first of what a longer one finds. -/
lemma collect_extends {find : Nat → Option α} {count count' : Nat} (h : count ≤ count')
    (start : Nat) : collect find start count <+: collect find start count' := by
  induction count generalizing start count' with
  | zero => exact List.nil_prefix
  | succ count ih =>
    obtain ⟨count', rfl⟩ : ∃ n, count' = n + 1 := ⟨count' - 1, by omega⟩
    rw [collect, collect]
    cases find start with
    | none => exact List.prefix_rfl
    | some a => exact List.cons_prefix_cons.mpr ⟨rfl, ih (by omega) (start + 1)⟩

end Walk

/-- An index is a number below `2 ^ 32`. -/
lemma index?_eq_some_iff {n : Nat} {i : UInt32} : index? n = some i ↔ i.toNat = n := by
  have hi : i.toNat < 2 ^ 32 := i.toNat_lt
  unfold index?
  split_ifs with hn
  · rw [Option.some_inj, ← UInt32.toNat_inj, UInt32.toNat_ofNat', Nat.mod_eq_of_lt hn]
    exact eq_comm
  · constructor
    · intro hnone
      cases hnone
    · intro hsame
      omega

/-- The count of a walk is as it is given, if it is not negative and within the cap, and the cap
otherwise. -/
lemma clampCount_eq (count : Int16) (cap : Nat) :
    clampCount count cap =
      if 0 ≤ count.toInt ∧ count.toInt ≤ cap then count.toInt.toNat else cap := by
  unfold clampCount
  split_ifs <;> omega

/-- A greater cap does not make a walk shorter. -/
lemma clampCount_mono (count : Int16) {cap cap' : Nat} (h : cap ≤ cap') :
    clampCount count cap ≤ clampCount count cap' := by
  unfold clampCount
  split_ifs <;> omega

/-! ## Blocks in a row -/

/-- The blocks that stand one after the other from an index on, at most `count`, as far as the
ledger has them. -/
def blocksOn (ledger : Ledger) (first count : Nat) : List Block :=
  collect (fun n => (index? n).bind ledger.blockAt) first count

variable {ledger : Ledger}

/-- Blocks in a row stand at consecutive indices, none of them above the height. -/
lemma lists_blocksOn (hchain : ledger.IsChain) (first count : Nat) :
    ledger.Lists first (min (first + count) (ledger.height.toNat + 1))
      (blocksOn ledger first count) := by
  have hheight : ledger.height.toNat < 2 ^ 32 := ledger.height.toNat_lt
  unfold Ledger.Lists blocksOn
  induction count generalizing first with
  | zero =>
    rw [List.Ico.eq_nil_of_le (by omega)]
    exact .nil
  | succ count ih =>
    rw [collect]
    by_cases hfirst : first ≤ ledger.height.toNat
    · -- There is a block at the first index, and the others follow on it.
      have hi : (UInt32.ofNat first).toNat = first := by
        rw [UInt32.toNat_ofNat', Nat.mod_eq_of_lt (by omega)]
      have hle : UInt32.ofNat first ≤ ledger.height := by
        rw [UInt32.le_iff_toNat_le, hi]
        exact hfirst
      obtain ⟨b, hb⟩ := hchain.exists_blockAt hle
      have hhash : ledger.blockHash (UInt32.ofNat first) = some b.hash := by
        rw [hchain.blockHash_eq, hb, Option.map_some]
      have hrest := ih (first + 1)
      rw [index?_eq_some_iff.mpr hi, Option.bind_some, hb, List.Ico.eq_cons (by omega)]
      rw [show first + 1 + count = first + (count + 1) by omega] at hrest
      exact .cons ⟨_, hi, hhash, hb⟩ hrest
    · have hnone : (index? first).bind ledger.blockAt = none := by
        cases hindex : index? first with
        | none => rfl
        | some i =>
          refine hchain.blockAt_eq_none ?_
          rw [UInt32.le_iff_toNat_le, index?_eq_some_iff.mp hindex]
          exact hfirst
      rw [hnone, List.Ico.eq_nil_of_le (by omega)]
      exact .nil

/-- A row has a first block if there is something to count, and something above the place where it
starts; otherwise it is empty. -/
lemma blocksOn_cases (hchain : ledger.IsChain) (s count : Nat) :
    (s < min (s + count) ledger.height.toNat ∧
      ∃ b rest, blocksOn ledger (s + 1) count = b :: rest) ∨
      (¬ s < min (s + count) ledger.height.toNat ∧ blocksOn ledger (s + 1) count = []) := by
  have hlength := (lists_blocksOn hchain (s + 1) count).length_eq
  cases hblocks : blocksOn ledger (s + 1) count with
  | nil =>
    rw [hblocks, List.length_nil] at hlength
    exact .inr ⟨by omega, rfl⟩
  | cons b rest =>
    rw [hblocks, List.length_cons] at hlength
    exact .inl ⟨by omega, b, rest, rfl⟩

/-- A walk whose every step shows something of the block at an index shows it of the blocks in a
row. -/
lemma collect_eq_map_blocksOn {α : Type} {find : Nat → Option α} (view : Block → α)
    (hfind : ∀ n, find n = ((index? n).bind ledger.blockAt).map view) (first count : Nat) :
    collect find first count = (blocksOn ledger first count).map view := by
  rw [funext hfind, collect_map]
  rfl

/-- The hashes that follow a block are those of the blocks in a row. -/
lemma hashesAfter_eq (hchain : ledger.IsChain) (s : UInt32) (count : Nat) :
    hashesAfter ledger s count = (blocksOn ledger (s.toNat + 1) count).map Block.hash := by
  refine collect_eq_map_blocksOn _ ?_ _ _
  intro n
  cases index? n with
  | none => rfl
  | some i =>
    change (if i ≤ ledger.height then ledger.blockHash i else none) =
      (ledger.blockAt i).map Block.hash
    split_ifs with hi
    · exact hchain.blockHash_eq i
    · rw [hchain.blockAt_eq_none hi, Option.map_none]

/-- The headers that follow a block are those of the blocks in a row, without a look at the
height. -/
lemma headersAfter_eq (hchain : ledger.IsChain) (s : UInt32) (count : Nat) :
    headersAfter ledger s count = (blocksOn ledger (s.toNat + 1) count).map Block.header := by
  refine collect_eq_map_blocksOn _ ?_ _ _
  intro n
  cases index? n with
  | none => rfl
  | some i => exact hchain.bind_header_eq i

/-! ## Answers -/

/-- A request for hashes is answered with those of the blocks in a row. -/
lemma onGetBlocks_eq (hchain : ledger.IsChain) {walk : ChainWalk} {s : UInt32}
    (hstart : ledger.blockIndex walk.start = some s) :
    let count := clampCount walk.count HashList.maxCount
    onGetBlocks ledger walk =
      if s.toNat < min (s.toNat + count) ledger.height.toNat then
        [.send (.inv ⟨.block, (blocksOn ledger (s.toNat + 1) count).map Block.hash⟩)]
      else [] := by
  unfold onGetBlocks
  rw [hstart]
  dsimp only
  rw [hashesAfter_eq hchain]
  obtain ⟨hrow, b, rest, hblocks⟩ | ⟨hrow, hblocks⟩ := blocksOn_cases hchain s.toNat
    (clampCount walk.count HashList.maxCount)
  · rw [if_pos hrow, hblocks]
    rfl
  · rw [if_neg hrow, hblocks]
    rfl

/-- A request for headers is answered with those of the blocks in a row. -/
lemma onGetHeaders_eq (hchain : ledger.IsChain) {walk : ChainWalk} {s : UInt32}
    (hstart : ledger.blockIndex walk.start = some s) :
    let count := clampCount walk.count Header.maxCount
    onGetHeaders ledger walk =
      if s.toNat < min (s.toNat + count) ledger.height.toNat then
        [.send (.headers ((blocksOn ledger (s.toNat + 1) count).map Block.header))]
      else [] := by
  unfold onGetHeaders
  rw [hstart]
  dsimp only
  rw [headersAfter_eq hchain]
  obtain ⟨hrow, b, rest, hblocks⟩ | ⟨hrow, hblocks⟩ := blocksOn_cases hchain s.toNat
    (clampCount walk.count Header.maxCount)
  · rw [if_pos hrow, hblocks]
    rfl
  · rw [if_neg hrow, hblocks]
    rfl

/-- A request for blocks from above the height is not answered. -/
lemma onGetBlockData_eq_nil (hchain : ledger.IsChain) (h : Handler) {range : BlockRange}
    (hrange : ledger.height < range.start) : h.onGetBlockData ledger range = [] := by
  have hlists := lists_blocksOn hchain range.start.toNat (min range.count.toNat maxBlockDataCount)
  have hblocks :
      blocksOn ledger range.start.toNat (min range.count.toNat maxBlockDataCount) = [] := by
    rw [UInt32.lt_iff_toNat_lt] at hrange
    rw [← List.length_eq_zero_iff, hlists.length_eq]
    omega
  exact congrArg (List.map fun b => HandlerEvent.send (h.blockMessage b)) hblocks

/-- Over a chain, the requests for hashes, for headers and for blocks are answered from one and the
same row of blocks behind the index `s` where they start: the blocks at `s + 1` and on, as many as
the walk may have, none above the height and none left out or shown twice.  The first two answer in
one message or, with an empty row, not at all; the third in a message for each block.  Where the
start is not on the chain, nothing is answered. -/
theorem chain_walks_agree {ledger : Ledger} (hchain : ledger.IsChain) {h : Handler}
    (hready : h.state = .ready) (moment : Moment) :
    let answers (m : Message) (events : List HandlerEvent) : Prop :=
      h.call (.handle ledger moment (.message m)) = (h, ⟨events, [], none, none⟩)
    (∀ start, ledger.blockIndex start = none → ∀ count,
      answers (.getBlocks ⟨start, count⟩) [] ∧ answers (.getHeaders ⟨start, count⟩) []) ∧
    (∀ range : BlockRange, ledger.height < range.start → answers (.getBlockData range) []) ∧
    ∀ start s, ledger.blockIndex start = some s → ∃ row : Nat → List Block,
      (∀ n, ledger.Lists (s.toNat + 1) (min (s.toNat + n) ledger.height.toNat + 1) (row n)) ∧
      (∀ count : Int16,
        let upTo (cap : Nat) : Nat :=
          if 0 ≤ count.toInt ∧ count.toInt ≤ cap then count.toInt.toNat else cap
        answers (.getBlocks ⟨start, count⟩)
          (if s.toNat < min (s.toNat + upTo 500) ledger.height.toNat then
            [.send (.inv ⟨.block, (row (upTo 500)).map Block.hash⟩)] else []) ∧
        answers (.getHeaders ⟨start, count⟩)
          (if s.toNat < min (s.toNat + upTo 2000) ledger.height.toNat then
            [.send (.headers ((row (upTo 2000)).map Block.header))] else []) ∧
        (row (upTo 500)).map Block.hash <+: ((row (upTo 2000)).map Block.header).map Header.hash) ∧
      ∀ range : BlockRange, range.start.toNat = s.toNat + 1 →
        answers (.getBlockData range)
          ((row (min range.count.toNat 500)).map fun b => .send (h.blockMessage b)) := by
  intro answers
  have hwalks : ∀ walk, answers (.getBlocks walk) (onGetBlocks ledger walk) ∧
      answers (.getHeaders walk) (onGetHeaders ledger walk) := fun walk =>
    ⟨call_message_of_ready hready ledger moment rfl, call_message_of_ready hready ledger moment rfl⟩
  have hdata : ∀ range, answers (.getBlockData range) (h.onGetBlockData ledger range) :=
    fun range =>
    call_message_of_ready hready ledger moment rfl
  refine ⟨?_, ?_, ?_⟩
  · intro start hstart count
    obtain ⟨hhashes, hheaders⟩ := hwalks ⟨start, count⟩
    unfold onGetBlocks at hhashes
    unfold onGetHeaders at hheaders
    rw [hstart] at hhashes hheaders
    exact ⟨hhashes, hheaders⟩
  · intro range hrange
    have hanswer := hdata range
    rw [onGetBlockData_eq_nil hchain h hrange] at hanswer
    exact hanswer
  · intro start s hstart
    refine ⟨blocksOn ledger (s.toNat + 1), ?_, ?_, ?_⟩
    · intro n
      have hrow := lists_blocksOn hchain (s.toNat + 1) n
      rw [show s.toNat + 1 + n = s.toNat + n + 1 by omega, Nat.add_min_add_right] at hrow
      exact hrow
    · intro count upTo
      have hupTo : ∀ cap, clampCount count cap = upTo cap := clampCount_eq count
      obtain ⟨hhashes, hheaders⟩ := hwalks ⟨start, count⟩
      rw [onGetBlocks_eq hchain hstart] at hhashes
      rw [onGetHeaders_eq hchain hstart] at hheaders
      simp only [hupTo] at hhashes hheaders
      refine ⟨hhashes, hheaders, ?_⟩
      have hcounts : upTo 500 ≤ upTo 2000 := by
        rw [← hupTo, ← hupTo]
        exact clampCount_mono count (by omega)
      rw [List.map_map]
      exact (collect_extends hcounts _).map Block.hash
    · intro range hrange
      have hanswer := hdata range
      unfold onGetBlockData blocksFrom at hanswer
      rw [hrange] at hanswer
      exact hanswer

/-- Behind the first of two blocks there is the second, for each of the three requests. -/
theorem chain_walks_agree_behind_first_of_two :
    let first : Block := MemoryLedger.plainBlock default 0 0
    let ledger : Ledger := MemoryLedger.toLedger
      ⟨[first, MemoryLedger.plainBlock default 1 0], none, [], [], [], [], none, 0⟩
    let h : Handler := { start ledger 1000 with state := .ready }
    let answers (m : Message) (events : List HandlerEvent) : Prop :=
      h.call (.handle ledger ⟨0, 0⟩ (.message m)) = (h, ⟨events, [], none, none⟩)
    ∃ b, ledger.blockAt 1 = some b ∧
      answers (.getBlocks ⟨first.hash, -1⟩) [.send (.inv ⟨.block, [b.hash]⟩)] ∧
      answers (.getHeaders ⟨first.hash, 1⟩) [.send (.headers [b.header])] ∧
      answers (.getBlockData ⟨1, 9⟩) [.send (.block b)] ∧
      answers (.getBlockData ⟨2, 9⟩) [] := by
  intro first ledger h answers
  have hdistinct : [first.hash, (MemoryLedger.plainBlock default 1 0).hash].Nodup := by
    decide +kernel
  have hchain : ledger.IsChain :=
    MemoryLedger.isChain (by simp) (by simp) hdistinct rfl rfl rfl
  have hheight : ledger.height = 1 := rfl
  have hstart : ledger.blockIndex first.hash = some 0 :=
    (hchain.blockIndex_iff _ _).mpr (by simp [ledger, MemoryLedger.toLedger])
  obtain ⟨-, habove, hknown⟩ := chain_walks_agree (h := h) hchain rfl ⟨0, 0⟩
  obtain ⟨row, hlists, hwalks, hdata⟩ := hknown first.hash 0 hstart
  obtain ⟨b, hb⟩ := hchain.exists_blockAt (i := 1) (by decide)
  have hrow : ∀ n, 0 < n → row n = [b] := by
    intro n hn
    have hlast : min ((0 : UInt32).toNat + n) ledger.height.toNat = 1 := by
      rw [hheight, UInt32.toNat_zero, UInt32.toNat_one]
      omega
    have hone := hlists n
    rw [hlast] at hone
    obtain ⟨b', rest, ⟨i, hi, -, hb'⟩, hrest, heq⟩ := List.forall₂_cons_left_iff.mp hone
    obtain rfl : i = 1 := UInt32.toNat_inj.mp hi
    rw [heq, List.forall₂_nil_left_iff.mp hrest, Option.some_inj.mp (hb'.symm.trans hb)]
  refine ⟨b, hb, ?_, ?_, ?_, habove _ (by decide)⟩
  · have hhashes := (hwalks (-1)).1
    simpa [hrow, hheight] using hhashes
  · have hheaders := (hwalks 1).2.1
    simpa [hrow, hheight] using hheaders
  · have hblocks := hdata ⟨1, 9⟩ rfl
    rw [hrow _ (by decide)] at hblocks
    exact hblocks

end Handler

end PeerNet
