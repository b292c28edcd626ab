import Mathlib
import PeerNet.Ledger.Memory

/-!
# Ledgers that are chains

A ledger is a chain (`Ledger.IsChain`) if it knows the hash at every index up to its height and at
none above, leads from each hash back to the index and on to the block, and has no other way to find
blocks and headers.  The block at an index then has the hash that is known there, so hashes, headers
and blocks along the chain tell of the same blocks.

A chain held in memory is such a ledger, as soon as no two of its blocks have the same hash.
-/

namespace PeerNet

namespace Ledger

/-- A ledger without gaps, in which hashes, indices and blocks belong together. -/
structure IsChain (l : Ledger) : Prop where
  /-- There is a hash at every index up to the height, and at no other. -/
  isSome_blockHash : ∀ i, (l.blockHash i).isSome = true ↔ i ≤ l.height
  /-- A hash leads back to its index. -/
  blockIndex_iff : ∀ hash i, l.blockIndex hash = some i ↔ l.blockHash i = some hash
  /-- A hash leads to the block whose hash it is. -/
  exists_block : ∀ i hash, l.blockHash i = some hash → ∃ b, l.block hash = some b ∧ b.hash = hash
  /-- Blocks are found at an index by their hashes. -/
  blockAt_eq : ∀ i, l.blockAt i = (l.blockHash i).bind l.block
  /-- Headers are those of the blocks. -/
  header_eq : ∀ hash, l.header hash = (l.block hash).map Block.header

/-- The blocks at the indices from `first` on and before `stop`, in order. -/
def Lists (l : Ledger) (first stop : Nat) (blocks : List Block) : Prop :=
  List.Forall₂
    (fun n b => ∃ i : UInt32, i.toNat = n ∧ l.blockHash i = some b.hash ∧ l.blockAt i = some b)
    (List.Ico first stop) blocks

variable {l : Ledger}

/-- There is one block for each index. -/
lemma Lists.length_eq {first stop : Nat} {blocks : List Block} (h : l.Lists first stop blocks) :
    blocks.length = stop - first := by
  rw [← List.Forall₂.length_eq h, List.Ico.length]

namespace IsChain

variable (h : l.IsChain)
include h

/-- The hash at an index is that of the block there. -/
lemma blockHash_eq (i : UInt32) : l.blockHash i = (l.blockAt i).map Block.hash := by
  rw [h.blockAt_eq]
  cases hhash : l.blockHash i with
  | none => rfl
  | some hash =>
    obtain ⟨b, hb, hbhash⟩ := h.exists_block i hash hhash
    rw [Option.bind_some, hb, Option.map_some, hbhash]

/-- The header that the hash at an index leads to is that of the block there. -/
lemma bind_header_eq (i : UInt32) :
    (l.blockHash i).bind l.header = (l.blockAt i).map Block.header := by
  rw [h.blockAt_eq, Option.map_bind]
  congr 1
  funext hash
  exact h.header_eq hash

/-- There is a block at every index up to the height. -/
lemma exists_blockAt {i : UInt32} (hi : i ≤ l.height) : ∃ b, l.blockAt i = some b := by
  have hhash := (h.isSome_blockHash i).mpr hi
  rw [h.blockHash_eq, Option.isSome_map] at hhash
  exact Option.isSome_iff_exists.mp hhash

/-- There is none above. -/
lemma blockAt_eq_none {i : UInt32} (hi : ¬ i ≤ l.height) : l.blockAt i = none := by
  rw [h.blockAt_eq]
  have hhash : ¬ (l.blockHash i).isSome = true := fun hsome => hi ((h.isSome_blockHash i).mp hsome)
  rw [Option.not_isSome_iff_eq_none.mp hhash, Option.bind_none]

end IsChain

end Ledger

/-! ## Chains held in memory -/

namespace MemoryLedger

/-- Where a hash stands first among those of some items. -/
lemma getElem?_positions {α : Type} (hash : α → Hash) (items : List α) (x : Hash) :
    (positions hash items)[x]? = (items.map hash).idxOf? x := by
  suffices hfold : ∀ (k : Nat) (m : Std.HashMap Hash Nat),
      ((items.zipIdx k).foldl (fun m item => m.insertIfNew (hash item.1) item.2) m)[x]? =
        m[x]?.or (((items.map hash).idxOf? x).map (· + k)) by
    have hall := hfold 0 ∅
    rw [Std.HashMap.getElem?_empty, Option.none_or] at hall
    exact hall.trans Option.map_id'
  induction items with
  | nil =>
    intro k m
    exact (Option.or_none ..).symm
  | cons a rest ih =>
    intro k m
    rw [List.zipIdx_cons, List.foldl_cons, ih, Std.HashMap.getElem?_insertIfNew, List.map_cons,
      List.idxOf?_cons]
    by_cases hx : hash a = x
    · subst hx
      -- An earlier item with the same hash keeps its place.
      cases hm : m[hash a]? with
      | none =>
        have hnew : hash a ∉ m := by simpa using hm
        simp [hnew]
      | some i =>
        have hold : hash a ∈ m := by
          rw [← Std.HashMap.isSome_getElem?_iff_mem, hm]
          rfl
        simp [hold]
    · have hshift : ∀ n, n + 1 + k = n + (k + 1) := fun n => by omega
      simp [hx, Function.comp_def, hshift]

/-- Where no hash comes twice, each stands first where it stands. -/
lemma idxOf?_eq_some_iff_of_nodup {hashes : List Hash} (h : hashes.Nodup) {x : Hash} {i : Nat} :
    hashes.idxOf? x = some i ↔ hashes[i]? = some x := by
  rw [List.idxOf?_eq_some_iff, List.getElem?_eq_some_iff]
  constructor
  · rintro ⟨hi, hx, -⟩
    exact ⟨hi, hx⟩
  · rintro ⟨hi, hx⟩
    refine ⟨hi, hx, ?_⟩
    intro j hj hsame
    exact hj.ne (h.getElem_inj_iff.mp (hsame.trans hx.symm))

/-- Blocks with distinct hashes, all of them at hand, are a chain. -/
lemma isChain {l : MemoryLedger} (hblocks : l.blocks ≠ []) (hlength : l.blocks.length ≤ 2 ^ 32)
    (hdistinct : (l.blocks.map Block.hash).Nodup) (hheight : l.height = none)
    (hknown : l.unknownIndices = []) (hstored : l.unstoredIndices = []) : l.toLedger.IsChain := by
  have hpos : 0 < l.blocks.length := List.length_pos_iff.mpr hblocks
  have htop : l.toLedger.height.toNat = l.blocks.length - 1 := by
    change (l.height.getD (UInt32.ofNat (l.blocks.length - 1))).toNat = _
    rw [hheight, Option.getD_none, UInt32.toNat_ofNat', Nat.mod_eq_of_lt (by omega)]
  have hhash : ∀ i, l.toLedger.blockHash i = (l.blocks.map Block.hash)[i.toNat]? := by
    intro i
    simp [toLedger, hknown]
  have hindex : ∀ x, l.toLedger.blockIndex x =
      ((l.blocks.map Block.hash).idxOf? x).map UInt32.ofNat := by
    intro x
    simp [toLedger, getElem?_positions]
  have hblock : ∀ x, l.toLedger.block x =
      ((l.blocks.map Block.hash).idxOf? x).bind fun i => l.blocks[i]? := by
    intro x
    simp [toLedger, getElem?_positions, hstored]
  refine ⟨?_, ?_, ?_, ?_, ?_⟩
  · intro i
    rw [hhash, isSome_getElem?, List.length_map, UInt32.le_iff_toNat_le, htop]
    omega
  · intro x i
    rw [hhash, hindex, ← idxOf?_eq_some_iff_of_nodup hdistinct, Option.map_eq_some_iff]
    constructor
    · rintro ⟨n, hn, rfl⟩
      obtain ⟨hlt, -⟩ := List.idxOf?_eq_some_iff.mp hn
      rw [List.length_map] at hlt
      rw [UInt32.toNat_ofNat', Nat.mod_eq_of_lt (by omega)]
      exact hn
    · intro hi
      exact ⟨i.toNat, hi, UInt32.ofNat_toNat⟩
  · intro i x hx
    rw [hhash] at hx
    have hfirst := (idxOf?_eq_some_iff_of_nodup hdistinct).mpr hx
    rw [List.getElem?_map] at hx
    obtain ⟨b, hb, hbx⟩ := Option.map_eq_some_iff.mp hx
    refine ⟨b, ?_, hbx⟩
    rw [hblock, hfirst]
    exact hb
  · intro i
    rfl
  · intro x
    rfl

end MemoryLedger

end PeerNet
