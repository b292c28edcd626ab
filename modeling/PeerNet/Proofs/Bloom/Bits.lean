import PeerNet.Proofs.Bloom.Filter
import PeerNet.Proofs.Codec.Payload

/-!
# Filters as sets of bits

All that a filter knows is which of its bits are set.  The bits that an element picks depend on the
size of the filter, on its hash functions and on nothing else, and adding an element unites them
with the bits that are set already (`BloomFilter.getBit_addAll`).  So it makes no difference in
which order elements are added, nor how often.

A filter that is written out as the message that loads it and read back is the same filter.
-/

namespace PeerNet

namespace BloomFilter

/-! ## Bits -/

/-- Two bytes with the same binary digits are equal. -/
lemma eq_of_testBit_eq {a b : UInt8} (h : ∀ i < 8, a.toNat.testBit i = b.toNat.testBit i) :
    a = b := by
  apply UInt8.toNat_inj.mp
  apply Nat.eq_of_testBit_eq
  intro i
  by_cases hi : i < 8
  · exact h i hi
  · -- A byte has no digits past the eighth.
    have hpow : 2 ^ 8 ≤ 2 ^ i := Nat.pow_le_pow_right (by decide) (Nat.le_of_not_lt hi)
    rw [Nat.testBit_lt_two_pow (a.toNat_lt.trans_le hpow),
      Nat.testBit_lt_two_pow (b.toNat_lt.trans_le hpow)]

/-- Two bit arrays of one size in which the same bits are set are equal. -/
lemma ext_getBit {bits bits' : Bytes} (hlength : bits.length = bits'.length)
    (h : ∀ i, getBit bits i = getBit bits' i) : bits = bits' := by
  apply List.ext_getElem hlength
  intro n hn hn'
  apply eq_of_testBit_eq
  intro i hi
  have hbit := h (8 * n + i)
  rw [getBit_eq, getBit_eq, Nat.mul_add_div (by decide), Nat.div_eq_of_lt hi, Nat.mul_add_mod,
    Nat.mod_eq_of_lt hi, Nat.add_zero, List.getElem?_eq_getElem hn, List.getElem?_eq_getElem hn']
    at hbit
  exact hbit

/-! ## Adding -/

variable {f : BloomFilter}

/-- Adding elements changes nothing but bits, and what any element picks depends on none of them. -/
lemma addAll_spec (f : BloomFilter) (elements : List Bytes) :
    (f.addAll elements).bits.length = f.bits.length ∧ (f.addAll elements).k = f.k ∧
      (f.addAll elements).tweak = f.tweak ∧ ∀ e, (f.addAll elements).picks e = f.picks e := by
  induction elements generalizing f with
  | nil => exact ⟨rfl, rfl, rfl, fun e => rfl⟩
  | cons element rest ih =>
    obtain ⟨hlength, hk, htweak, hpicks⟩ := ih (f.add element)
    refine ⟨?_, ?_, ?_, ?_⟩
    · exact hlength.trans (length_bits_add f element)
    · exact hk.trans (k_add f element)
    · exact htweak.trans (tweak_add f element)
    · intro e
      exact (hpicks e).trans (picks_add f element e)

/-- After an element was added, those bits are set that were set before and those that it picks. -/
lemma getBit_add (hbits : f.bits ≠ []) (element : Bytes) (i : Nat) :
    getBit (f.add element).bits i = true ↔ getBit f.bits i = true ∨ i ∈ f.picks element := by
  rw [bits_add hbits, getBit_foldl_setBit, Bool.or_eq_true, Bool.and_eq_true, decide_eq_true_eq,
    List.contains_iff_mem]
  constructor
  · rintro (hold | ⟨hpicked, -⟩)
    · exact .inl hold
    · exact .inr hpicked
  · rintro (hold | hpicked)
    · exact .inl hold
    · exact .inr ⟨hpicked, lt_length_of_mem_picks hbits hpicked⟩

/-- After several elements were added, those bits are set that were set before and those that any of
the elements picks. -/
lemma getBit_addAll (hbits : f.bits ≠ []) (elements : List Bytes) (i : Nat) :
    getBit (f.addAll elements).bits i = true ↔
      getBit f.bits i = true ∨ ∃ e ∈ elements, i ∈ f.picks e := by
  induction elements generalizing f with
  | nil =>
    change getBit f.bits i = true ↔ _
    simp
  | cons element rest ih =>
    change getBit ((f.add element).addAll rest).bits i = true ↔ _
    rw [ih (bits_add_ne_nil hbits element), getBit_add hbits, or_assoc, List.exists_mem_cons_iff]
    simp only [picks_add]

/-- Which elements are added decides what becomes of a filter; their order does not, nor how often
each of them is added. -/
lemma addAll_eq_of_mem_iff (hbits : f.bits ≠ []) {elements others : List Bytes}
    (h : ∀ e, e ∈ others ↔ e ∈ elements) : f.addAll others = f.addAll elements := by
  obtain ⟨hlength, hk, htweak, -⟩ := addAll_spec f elements
  obtain ⟨hlength', hk', htweak', -⟩ := addAll_spec f others
  have hsame : (f.addAll others).bits = (f.addAll elements).bits := by
    apply ext_getBit (hlength'.trans hlength.symm)
    intro i
    rw [Bool.eq_iff_iff, getBit_addAll hbits, getBit_addAll hbits]
    simp only [h]
  cases hothers : f.addAll others
  cases helements : f.addAll elements
  rw [hothers] at hk' htweak' hsame
  rw [helements] at hk htweak hsame
  rw [mk.injEq]
  exact ⟨hsame, hk'.trans hk.symm, htweak'.trans htweak.symm⟩

/-! ## Writing a filter -/

/-- The message that loads a filter. -/
def toLoad (f : BloomFilter) : FilterLoad := ⟨f.bits, f.k, f.tweak⟩

/-- A filter within the caps is read back as it was written. -/
lemma decodeAll_encode_toLoad (hsize : f.bits.length ≤ FilterLoad.maxFilterSize)
    (hk : f.k ≤ FilterLoad.maxHashFunctions) :
    FilterLoad.decoder.decodeAll f.toLoad.encode = .ok f.toLoad :=
  FilterLoad.decoder_inverts.decodeAll_eq_ok_iff.mpr ⟨trivial, ⟨hsize, hk⟩, rfl⟩

/-- A filter with bits stays within them: every bit that an element picks is one of its own, however
many hash functions there are and whatever was added.  Adding elements sets the bits that they pick
and leaves all others as they are, in whatever order and how often they come, and changes neither
the size nor the hash functions.  The filter then accepts all of them and all that it accepted
before.  And as far as it is within the caps, the filter that is read back from the message that
loads it accepts the same. -/
theorem filter_laws (f : BloomFilter) (hbits : f.bits ≠ []) (elements : List Bytes) :
    let g := f.addAll elements
    (∀ e, ∀ i ∈ g.picks e, i < g.size ∧ i / 8 < g.bits.length) ∧
    (∀ others : List Bytes, (∀ e, e ∈ others ↔ e ∈ elements) → f.addAll others = g) ∧
    (∀ i, getBit g.bits i = true ↔ getBit f.bits i = true ∨ ∃ e ∈ elements, i ∈ f.picks e) ∧
    (g.size = f.size ∧ g.k = f.k ∧ g.tweak = f.tweak) ∧
    (∀ e, f.check e = true ∨ e ∈ elements → g.check e = true) ∧
    (g.bits.length ≤ FilterLoad.maxFilterSize → g.k ≤ FilterLoad.maxHashFunctions →
      ∃ load, FilterLoad.decoder.decodeAll g.toLoad.encode = .ok load ∧
        ∀ e, (ofLoad load).check e = g.check e) := by
  intro g
  obtain ⟨hlength, hk, htweak, -⟩ := addAll_spec f elements
  have hbits' : g.bits ≠ [] := by
    rw [← List.length_pos_iff, hlength]
    exact List.length_pos_iff.mpr hbits
  refine ⟨?_, ?_, ?_, ⟨?_, hk, htweak⟩, ?_, ?_⟩
  · intro e i hi
    exact ⟨lt_size_of_mem_picks hbits' hi, lt_length_of_mem_picks hbits' hi⟩
  · intro others hothers
    exact addAll_eq_of_mem_iff hbits hothers
  · intro i
    exact getBit_addAll hbits elements i
  · unfold size
    rw [hlength]
  · intro e he
    exact check_addAll hbits elements he
  · intro hsize hfunctions
    exact ⟨g.toLoad, decodeAll_encode_toLoad hsize hfunctions, fun e => rfl⟩

/-- The laws hold of a filter whose size is no power of two. -/
theorem filter_laws_of_three_bytes :
    let f : BloomFilter := ⟨[0, 0, 0], 3, 5⟩
    let g := f.addAll [[1], [2, 3]]
    f.check [2, 3] = false ∧ g.check [2, 3] = true ∧ g.check [4] = false ∧
    f.addAll [[2, 3], [1], [2, 3]] = g ∧ (∀ e, ∀ i ∈ g.picks e, i < 24) ∧
    ∃ load, FilterLoad.decoder.decodeAll g.toLoad.encode = .ok load ∧
      ∀ e, (ofLoad load).check e = g.check e := by
  intro f g
  have hbits : f.bits ≠ [] := List.cons_ne_nil _ _
  obtain ⟨hpicks, horder, -, ⟨hsize, hk, -⟩, hcheck, hload⟩ := filter_laws f hbits [[1], [2, 3]]
  refine ⟨by decide, hcheck _ (.inr ?_), by decide, horder _ ?_, ?_, ?_⟩
  · decide
  · intro e
    simp only [List.mem_cons, List.not_mem_nil, or_false]
    tauto
  · intro e i hi
    have hlt := (hpicks e i hi).1
    rw [hsize] at hlt
    exact hlt
  · obtain ⟨hlength, -⟩ := addAll_spec f [[1], [2, 3]]
    refine hload ?_ ?_
    · rw [hlength]
      decide
    · rw [hk]
      decide

end BloomFilter

end PeerNet
