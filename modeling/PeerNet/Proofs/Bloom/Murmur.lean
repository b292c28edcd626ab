import PeerNet.Proofs.Bloom.Filter

/-!
# Hash functions that differ everywhere

The hash functions of a filter are one hash, started from different seeds.  Every step of that hash
can be undone while the data are held fixed: adding a word, taking its exclusive or, multiplying by
an odd number, rotating, and folding the high digits into the low ones each send different words to
different words, and so reach every word there is.  What is made of such steps has the same
property, so the hash of any data is a bijection of its seed (`Murmur.bijective_hash`).

The seeds of different hash functions are different, because the number by which they are spread is
odd.  So no two hash functions of a filter ever agree on an element; what they pick can still
coincide, as there are fewer bits than words.
-/

namespace PeerNet

namespace Murmur

open Function (Bijective)

/-! ## Steps on words -/

/-- Exclusive or with a constant can be undone: it undoes itself. -/
lemma bijective_xor (c : UInt32) : Bijective fun x : UInt32 => x ^^^ c :=
  Finite.injective_iff_bijective.mp fun _ _ => (UInt32.xor_left_inj c).mp

/-- Adding a constant can be undone, as sums wrap around. -/
lemma bijective_add (c : UInt32) : Bijective fun x : UInt32 => x + c :=
  Finite.injective_iff_bijective.mp fun _ _ => (UInt32.add_left_inj c).mp

/-- An odd factor has no divisor in common with the number of words, so it can be cancelled. -/
lemma bijective_mul {c : UInt32} (hc : Odd c.toNat) : Bijective fun x : UInt32 => x * c := by
  apply Finite.injective_iff_bijective.mp
  intro x y h
  have hmod : x.toNat * c.toNat ≡ y.toNat * c.toNat [MOD 2 ^ 32] := by
    have hnat := congrArg UInt32.toNat h
    rwa [UInt32.toNat_mul, UInt32.toNat_mul] at hnat
  have hcoprime : (2 ^ 32).gcd c.toNat = 1 := Nat.Coprime.pow_left 32 (Nat.coprime_two_left.mpr hc)
  have hcancel := Nat.ModEq.cancel_right_of_coprime hcoprime hmod
  exact UInt32.toNat_inj.mp (hcancel.eq_of_lt_of_lt x.toNat_lt y.toNat_lt)

/-- Two words with the same binary digits are equal. -/
lemma eq_of_testBit_eq {x y : UInt32} (h : ∀ i < 32, x.toNat.testBit i = y.toNat.testBit i) :
    x = y :=
  UInt32.eq_of_toBitVec_eq (BitVec.eq_of_getLsbD_eq h)

/-- Past the last place a word has no digits. -/
lemma testBit_of_le (x : UInt32) {i : Nat} (hi : 32 ≤ i) : x.toNat.testBit i = false :=
  Nat.testBit_lt_two_pow (x.toNat_lt.trans_le (Nat.pow_le_pow_right (by decide) hi))

/-- A rotation moves every digit up by `n` places, and those past the last place to the first
ones. -/
lemma testBit_rotateLeft {n : UInt32} (hpos : 0 < n.toNat) (hlt : n.toNat < 32) (x : UInt32)
    {i : Nat} (hi : i < 32) :
    (rotateLeft x n).toNat.testBit ((i + n.toNat) % 32) = x.toNat.testBit i := by
  have hsub : (32 - n).toNat = 32 - n.toNat := UInt32.toNat_sub_of_le _ _ (Nat.le_of_lt hlt)
  rw [rotateLeft, UInt32.toNat_or, Nat.testBit_or, UInt32.toNat_shiftLeft, Nat.testBit_mod_two_pow,
    Nat.testBit_shiftLeft, UInt32.toNat_shiftRight, Nat.testBit_shiftRight, hsub,
    Nat.mod_eq_of_lt hlt, Nat.mod_eq_of_lt (show 32 - n.toNat < 32 by omega)]
  by_cases hwrap : i + n.toNat < 32
  · rw [Nat.mod_eq_of_lt hwrap, testBit_of_le x (show 32 ≤ 32 - n.toNat + (i + n.toNat) by omega)]
    simp [hwrap]
  · have hmod : (i + n.toNat) % 32 = i + n.toNat - 32 := by omega
    have hlow : ¬ n.toNat ≤ i + n.toNat - 32 := by omega
    rw [hmod, show 32 - n.toNat + (i + n.toNat - 32) = i by omega]
    simp [hlow]

/-- A rotation can be undone by the rotation the other way. -/
lemma bijective_rotateLeft {n : UInt32} (hpos : 0 < n.toNat) (hlt : n.toNat < 32) :
    Bijective (rotateLeft · n) := by
  apply Finite.injective_iff_bijective.mp
  intro x y h
  change rotateLeft x n = rotateLeft y n at h
  apply eq_of_testBit_eq
  intro i hi
  rw [← testBit_rotateLeft hpos hlt x hi, ← testBit_rotateLeft hpos hlt y hi, h]

/-- Folding changes a digit if the one `n` places above it is set. -/
lemma testBit_fold {n : UInt32} (hlt : n.toNat < 32) (x : UInt32) (i : Nat) :
    (fold x n).toNat.testBit i = (x.toNat.testBit i ^^ x.toNat.testBit (n.toNat + i)) := by
  rw [fold, UInt32.toNat_xor, Nat.testBit_xor, UInt32.toNat_shiftRight, Nat.testBit_shiftRight,
    Nat.mod_eq_of_lt hlt]

/-- Words that fold to the same word have the same digits: in the last places because there is
nothing above them, and below because the digits above them are the same already. -/
lemma testBit_eq_of_fold_eq {n : UInt32} (hpos : 0 < n.toNat) (hlt : n.toNat < 32) {x y : UInt32}
    (h : fold x n = fold y n) (d i : Nat) (hd : 32 ≤ i + d) :
    x.toNat.testBit i = y.toNat.testBit i := by
  -- By induction on the number of places `d` that are left above `i`.
  induction d generalizing i with
  | zero =>
    have hi : 32 ≤ i := hd
    rw [testBit_of_le x hi, testBit_of_le y hi]
  | succ d ih =>
    have habove : x.toNat.testBit (n.toNat + i) = y.toNat.testBit (n.toNat + i) :=
      ih (n.toNat + i) (by omega)
    have hfold : (fold x n).toNat.testBit i = (fold y n).toNat.testBit i := by rw [h]
    rw [testBit_fold hlt, testBit_fold hlt, habove] at hfold
    exact Bool.xor_left_inj.mp hfold

/-- No two words become one by being mixed with their own upper bits. -/
lemma bijective_fold {n : UInt32} (hpos : 0 < n.toNat) (hlt : n.toNat < 32) :
    Bijective (fold · n) := by
  apply Finite.injective_iff_bijective.mp
  intro x y h
  apply eq_of_testBit_eq
  intro i _
  exact testBit_eq_of_fold_eq hpos hlt h 32 i (Nat.le_add_left 32 i)

/-! ## The hash -/

/-- Mixing a word in can be undone, whatever the word. -/
lemma bijective_mix (k : UInt32) : Bijective (mix · k) := by
  have hrotate : Bijective (rotateLeft · 13) := bijective_rotateLeft (by decide) (by decide)
  have hmul : Bijective fun x : UInt32 => x * 5 := bijective_mul (by decide)
  exact (bijective_add _).comp (hmul.comp (hrotate.comp (bijective_xor (scramble k))))

/-- Data are mixed in without loss: four bytes by a step that can be undone, and the one to three
that are left by an exclusive or. -/
lemma bijective_absorb : ∀ data : Bytes, Bijective (absorb · data)
  | [] => Function.bijective_id
  | [_] => bijective_xor _
  | [_, _] => bijective_xor _
  | [_, _, _] => bijective_xor _
  | _ :: _ :: _ :: _ :: rest => (bijective_absorb rest).comp (bijective_mix _)

/-- The last mix can be undone step by step. -/
lemma bijective_finish : Bijective finish := by
  have hfold : Bijective (fold · 16) := bijective_fold (by decide) (by decide)
  have hfold' : Bijective (fold · 13) := bijective_fold (by decide) (by decide)
  have hmul : Bijective fun x : UInt32 => x * 0x85ebca6b := bijective_mul (by decide)
  have hmul' : Bijective fun x : UInt32 => x * 0xc2b2ae35 := bijective_mul (by decide)
  exact hfold.comp (hmul'.comp (hfold'.comp (hmul.comp hfold)))

/-- The hash of fixed data takes every word as its value, and each of them from one seed only. -/
theorem bijective_hash (data : Bytes) : Bijective (hash data) :=
  bijective_finish.comp ((bijective_xor _).comp (bijective_absorb data))

end Murmur

namespace BloomFilter

/-! ## The hash functions of a filter -/

/-- The seed tells the number of the hash function, as far as numbers fit a word. -/
lemma eq_of_seed_eq {tweak : UInt32} {i j : Nat} (hi : i < 2 ^ 32) (hj : j < 2 ^ 32)
    (h : seed tweak i = seed tweak j) : i = j := by
  have hspread : Function.Bijective fun x : UInt32 => x * 0xFBA4C795 :=
    Murmur.bijective_mul (by decide)
  have hword : UInt32.ofNat i = UInt32.ofNat j :=
    ((Murmur.bijective_add tweak).comp hspread).injective h
  have hnat := congrArg UInt32.toNat hword
  rwa [UInt32.toNat_ofNat_of_lt' hi, UInt32.toNat_ofNat_of_lt' hj] at hnat

/-- The words from which the bits that an element picks are taken, one per hash function. -/
def words (f : BloomFilter) (element : Bytes) : List UInt32 :=
  (List.range f.k.toNat).map fun i => Murmur.hash element (seed f.tweak i)

/-- The bits that an element picks are its hashes, cut down to the size of the filter. -/
lemma picks_eq_map_words (f : BloomFilter) (element : Bytes) :
    f.picks element = (f.words element).map fun word => word.toNat % f.size := by
  rw [picks, words, List.map_map]
  rfl

/-- The hash functions of a filter give an element words that are all different. -/
lemma nodup_words (f : BloomFilter) (element : Bytes) : (f.words element).Nodup := by
  have hlt : ∀ i ∈ List.range f.k.toNat, i < 2 ^ 32 := by
    intro i hi
    have hk : f.k.toNat < 256 := f.k.toNat_lt
    have hik : i < f.k.toNat := List.mem_range.mp hi
    omega
  apply List.Nodup.map_on _ List.nodup_range
  intro i hi j hj h
  exact eq_of_seed_eq (hlt i hi) (hlt j hj) ((Murmur.bijective_hash element).injective h)

/-- No two hash functions agree on any element, whatever the tweak and however many there are: the
hash of fixed data is a bijection of its seed.  So an element's bits are taken from words that are
all different, one for each hash function of the filter. -/
theorem hash_functions_differ (data : Bytes) :
    (∀ (tweak : UInt32) (i j : Nat), i < j → j < 2 ^ 32 →
      Murmur.hash data (seed tweak i) ≠ Murmur.hash data (seed tweak j)) ∧
    Function.Bijective (Murmur.hash data) ∧
    ∀ f : BloomFilter, (f.words data).Nodup ∧
      f.picks data = (f.words data).map fun word => word.toNat % f.size := by
  have hbijective := Murmur.bijective_hash data
  refine ⟨?_, hbijective, ?_⟩
  · intro tweak i j hij hj h
    have hsame : i = j := eq_of_seed_eq (hij.trans hj) hj (hbijective.injective h)
    exact Nat.ne_of_lt hij hsame
  · intro f
    exact ⟨nodup_words f data, picks_eq_map_words f data⟩

/-- The first and the last of all hash functions differ on four bytes with one left over. -/
theorem hash_functions_differ_on_five_bytes :
    let data : Bytes := [0x21, 0x43, 0x65, 0x87, 0x21]
    0 < 4294967295 ∧ 4294967295 < 2 ^ 32 ∧ Murmur.hash data (seed 7 0) = 0x78a01b23 ∧
      Murmur.hash data (seed 7 0) ≠ Murmur.hash data (seed 7 4294967295) := by
  intro data
  obtain ⟨hdiffer, -, -⟩ := hash_functions_differ data
  exact ⟨by decide, by decide, by decide, hdiffer 7 0 4294967295 (by decide) (by decide)⟩

end BloomFilter

end PeerNet
