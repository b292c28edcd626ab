import Mathlib
import PeerNet.Bloom.Filter

/-!
# Bits, filters and reduced blocks

A bit of a byte string is one binary digit of one of its bytes.  The bits of a filter and the flags
of a reduced block are read in the same way (`BloomFilter.getBit`), so one account of packed bits
serves both.

Adding an element to a filter sets bits and clears none, and which bits an element picks depends on
nothing that is ever changed.  So a filter goes on to accept whatever it accepts, and it accepts
whatever was added to it: it errs on one side only.
-/

namespace PeerNet

namespace BloomFilter

/-! ## Bits -/

/-- The mask of a position has the one bit that the position names within its byte. -/
lemma toNat_bitMask (i : Nat) : (bitMask i).toNat = 2 ^ (i % 8) := by
  have hi : i % 8 < 8 := Nat.mod_lt _ (by decide)
  rw [bitMask]
  generalize i % 8 = j at hi ⊢
  interval_cases j <;> rfl

/-- Reading a byte through a mask is reading one of its binary digits. -/
lemma and_bitMask_ne_zero (b : UInt8) (i : Nat) :
    (b &&& bitMask i != 0) = b.toNat.testBit (i % 8) := by
  have hnat : (b &&& bitMask i).toNat = (b.toNat.testBit (i % 8)).toNat * 2 ^ (i % 8) := by
    rw [UInt8.toNat_and, toNat_bitMask, Nat.and_two_pow]
  have hzero : (b &&& bitMask i = 0) ↔ b.toNat.testBit (i % 8) = false := by
    rw [← UInt8.toNat_inj, hnat]
    cases b.toNat.testBit (i % 8) <;> simp
  cases hbit : b.toNat.testBit (i % 8) with
  | false => exact bne_eq_false_iff_eq.mpr (hzero.mpr hbit)
  | true => exact bne_iff_ne.mpr fun h => Bool.noConfusion ((hzero.mp h).symm.trans hbit)

/-- A bit is a binary digit of the byte that it is in; past the last byte none is set. -/
lemma getBit_eq (bits : Bytes) (i : Nat) :
    getBit bits i = bits[i / 8]?.any fun b => b.toNat.testBit (i % 8) := by
  rw [getBit]
  split
  · next b hb => rw [hb, Option.any_some, and_bitMask_ne_zero]
  · next hnone => rw [hnone, Option.any_none]

@[simp] lemma length_setBit (bits : Bytes) (i : Nat) : (setBit bits i).length = bits.length :=
  List.length_modify ..

/-- Setting a bit sets that bit, if there is one, and no other. -/
lemma getBit_setBit (bits : Bytes) (i j : Nat) :
    getBit (setBit bits i) j = (getBit bits j || (i == j && decide (j / 8 < bits.length))) := by
  rw [getBit_eq, getBit_eq, setBit, List.getElem?_modify]
  cases hb : bits[j / 8]? with
  | none =>
    have hlength : ¬ j / 8 < bits.length := Nat.not_lt.mpr (List.getElem?_eq_none_iff.mp hb)
    simp [hlength]
  | some b =>
    have hlength : j / 8 < bits.length := (List.getElem?_eq_some_iff.mp hb).1
    by_cases hbyte : i / 8 = j / 8
    · have hsame : i % 8 = j % 8 ↔ i = j := by omega
      simp [hbyte, hlength, toNat_bitMask, Nat.testBit_two_pow, hsame, beq_eq_decide]
    · have hother : i ≠ j := fun h => hbyte (congrArg (· / 8) h)
      simp [hbyte, hother]

@[simp] lemma length_foldl_setBit (picked : List Nat) (bits : Bytes) :
    (picked.foldl setBit bits).length = bits.length := by
  induction picked generalizing bits with
  | nil => rfl
  | cons i rest ih => rw [List.foldl_cons, ih, length_setBit]

/-- Setting bits leaves set what is set, and sets those of them that there are. -/
lemma getBit_foldl_setBit (picked : List Nat) (bits : Bytes) (j : Nat) :
    getBit (picked.foldl setBit bits) j =
      (getBit bits j || (picked.contains j && decide (j / 8 < bits.length))) := by
  induction picked generalizing bits with
  | nil => simp
  | cons i rest ih =>
    rw [List.foldl_cons, ih, getBit_setBit, length_setBit, List.contains_cons, Bool.or_assoc,
      ← Bool.and_or_distrib_right, Bool.beq_comm]

/-! ## Filters -/

variable {f : BloomFilter}

@[simp] lemma length_bits_add (f : BloomFilter) (element : Bytes) :
    (f.add element).bits.length = f.bits.length := by
  rw [add]
  split
  · rfl
  · exact length_foldl_setBit _ _

@[simp] lemma k_add (f : BloomFilter) (element : Bytes) : (f.add element).k = f.k := by
  unfold add
  split <;> rfl

@[simp] lemma tweak_add (f : BloomFilter) (element : Bytes) : (f.add element).tweak = f.tweak := by
  unfold add
  split <;> rfl

/-- The bits that an element picks are the same before and after another is added. -/
@[simp] lemma picks_add (f : BloomFilter) (element other : Bytes) :
    (f.add element).picks other = f.picks other := by
  have hindex : (f.add element).bitIndex other = f.bitIndex other := by
    funext i
    rw [bitIndex, bitIndex, tweak_add, size, size, length_bits_add]
  rw [picks, picks, k_add, hindex]

/-- Every bit that an element picks is one of the filter. -/
lemma lt_size_of_mem_picks (hbits : f.bits ≠ []) {element : Bytes} {i : Nat}
    (hi : i ∈ f.picks element) : i < f.size := by
  obtain ⟨n, -, rfl⟩ := List.mem_map.mp hi
  have hlength : 0 < f.bits.length := List.length_pos_iff.mpr hbits
  apply Nat.mod_lt
  rw [size]
  omega

/-- It stands in one of the filter's bytes. -/
lemma lt_length_of_mem_picks (hbits : f.bits ≠ []) {element : Bytes} {i : Nat}
    (hi : i ∈ f.picks element) : i / 8 < f.bits.length := by
  have hlt := lt_size_of_mem_picks hbits hi
  rw [size] at hlt
  omega

/-- An element is found where all the bits that it picks are set, in a filter that has any. -/
lemma check_eq_true_iff {element : Bytes} :
    f.check element = true ↔ f.bits ≠ [] ∧ ∀ i ∈ f.picks element, getBit f.bits i = true := by
  rw [check, Bool.and_eq_true, List.all_eq_true]
  simp

/-- Where there are bits, an element is added by setting those that it picks. -/
lemma bits_add (hbits : f.bits ≠ []) (element : Bytes) :
    (f.add element).bits = (f.picks element).foldl setBit f.bits := by
  rw [add, if_neg (by simpa using hbits)]

/-- A filter that has bits keeps having some. -/
lemma bits_add_ne_nil (hbits : f.bits ≠ []) (element : Bytes) : (f.add element).bits ≠ [] := by
  rw [← List.length_pos_iff, length_bits_add]
  exact List.length_pos_iff.mpr hbits

/-- An element that was added is accepted. -/
lemma check_add_self (hbits : f.bits ≠ []) (element : Bytes) :
    (f.add element).check element = true := by
  refine check_eq_true_iff.mpr ⟨bits_add_ne_nil hbits element, fun i hi => ?_⟩
  rw [picks_add] at hi
  rw [bits_add hbits, getBit_foldl_setBit]
  simp [hi, lt_length_of_mem_picks hbits hi]

/-- What is accepted stays accepted. -/
lemma check_add {element : Bytes} (h : f.check element = true) (other : Bytes) :
    (f.add other).check element = true := by
  obtain ⟨hbits, hset⟩ := check_eq_true_iff.mp h
  refine check_eq_true_iff.mpr ⟨bits_add_ne_nil hbits other, fun i hi => ?_⟩
  rw [picks_add] at hi
  rw [bits_add hbits, getBit_foldl_setBit, hset i hi, Bool.true_or]

/-- A filter to which several elements are added, one after the other. -/
def addAll (f : BloomFilter) (elements : List Bytes) : BloomFilter := elements.foldl add f

/-- A filter with bits accepts what it accepted as it was loaded, and everything that was added. -/
lemma check_addAll (hbits : f.bits ≠ []) (elements : List Bytes) {element : Bytes}
    (h : f.check element = true ∨ element ∈ elements) :
    (f.addAll elements).check element = true := by
  induction elements generalizing f with
  | nil => exact h.resolve_right List.not_mem_nil
  | cons e rest ih =>
    refine ih (bits_add_ne_nil hbits e) ?_
    rcases h with hold | hadded
    · exact .inl (check_add hold e)
    · rcases List.mem_cons.mp hadded with rfl | hrest
      · exact .inl (check_add_self hbits element)
      · exact .inr hrest

end BloomFilter

/-! ## Flags -/

namespace MerkleBlock

open BloomFilter

/-- The digits of a packed byte are its flags. -/
lemma testBit_packByte (marks : List Bool) {i : Nat} (hi : i < 8) :
    (packByte marks).toNat.testBit i = marks[i]?.getD false := by
  induction marks generalizing i with
  | nil => simp [packByte]
  | cons m rest ih =>
    rw [packByte, UInt8.toNat_or, Nat.testBit_or, UInt8.toNat_shiftLeft, Nat.testBit_mod_two_pow]
    cases i with
    | zero => cases m <;> simp
    | succ i =>
      have hfirst : (if m = true then (1 : UInt8) else 0).toNat.testBit (i + 1) = false := by
        cases m <;> simp [Nat.testBit_succ]
      rw [hfirst, List.getElem?_cons_succ, ← ih (Nat.lt_of_succ_lt hi)]
      simp [hi]

/-- The bits of packed flags are the flags, and past the last flag none is set. -/
lemma getBit_packFlags (marks : List Bool) (i : Nat) :
    getBit (packFlags marks) i = marks[i]?.getD false := by
  induction marks using packFlags.induct generalizing i with
  | case1 => simp [packFlags, getBit]
  | case2 m rest ih =>
    rw [packFlags]
    by_cases hi : i < 8
    · rw [getBit_eq, Nat.div_eq_of_lt hi, Nat.mod_eq_of_lt hi, List.getElem?_cons_zero,
        Option.any_some, testBit_packByte _ hi, List.getElem?_take_of_lt hi]
    · obtain ⟨j, rfl⟩ : ∃ j, i = j + 8 := ⟨i - 8, by omega⟩
      have hrest := ih j
      rw [getBit_eq] at hrest
      rw [getBit_eq, show (j + 8) / 8 = j / 8 + 1 by omega, Nat.add_mod_right,
        List.getElem?_cons_succ, hrest, List.getElem?_drop, Nat.add_comm]

/-- The flag at a place says whether the filter accepts the transaction there. -/
lemma isMatched_reduce (f : BloomFilter) (b : Block) (i : Nat) :
    (f.reduce b).isMatched i = b.transactions[i]?.any f.accepts := by
  have hflag : (f.reduce b).isMatched i = getBit (packFlags (b.transactions.map f.accepts)) i := rfl
  rw [hflag, getBit_packFlags, List.getElem?_map]
  cases b.transactions[i]? <;> rfl

end MerkleBlock

end PeerNet
