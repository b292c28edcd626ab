import Mathlib
import PeerNet.Wire.Decoder

/-!
# Decoders that invert encoders

A decoder and an encoder of one type belong together when three things hold: what was written is
read back, whatever stands behind it; what is read was written in exactly that way; and a value
outside the caps, once written, is refused.  The first and the third speak about the encoder's
bytes, the second about every byte string.

`Decoder.Inverts d enc dom fits` states the three at once.  `dom` picks the values the encoder is
meant for (an address record, for instance, has its address in normal form), and `fits` is what the
decoder checks.  The law composes along the decoder: `Inverts.field` puts one more field in front
of the fields still to be read, and `Inverts.pure` closes the chain once all of them are known.
While the chain is walked, `dom` collects what has been read, so that at its end only one value is
left.
-/

namespace PeerNet

/-! ## Little-endian numbers -/

/-- A little-endian number is read back up to its width. -/
lemma ofLE_toLE (width n : Nat) : ofLE (toLE width n) = n % 256 ^ width := by
  induction width generalizing n with
  | zero => simp [toLE, ofLE, Nat.mod_one]
  | succ width ih =>
    have hbyte : (UInt8.ofNat n).toNat = n % 256 := UInt8.toNat_ofNat' ..
    rw [toLE, ofLE, ih, hbyte, Nat.pow_succ', Nat.mod_mul]

/-- A number that fits the width is read back. -/
lemma ofLE_toLE_of_lt {width n : Nat} (h : n < 256 ^ width) : ofLE (toLE width n) = n := by
  rw [ofLE_toLE, Nat.mod_eq_of_lt h]

/-- A byte string bounds the number it stands for. -/
lemma ofLE_lt (bs : Bytes) : ofLE bs < 256 ^ bs.length := by
  induction bs with
  | nil => simp [ofLE]
  | cons b bs ih =>
    have hb : b.toNat < 256 := b.toNat_lt
    rw [ofLE, List.length_cons, Nat.pow_succ']
    omega

/-- Every byte string is the little-endian form of its number. -/
lemma toLE_ofLE (bs : Bytes) : toLE bs.length (ofLE bs) = bs := by
  induction bs with
  | nil => rfl
  | cons b bs ih =>
    have hb : b.toNat < 256 := b.toNat_lt
    have hlow : UInt8.ofNat (b.toNat + 256 * ofLE bs) = b := by
      apply UInt8.toNat_inj.mp
      rw [UInt8.toNat_ofNat']
      omega
    have hhigh : (b.toNat + 256 * ofLE bs) / 256 = ofLE bs := by omega
    rw [List.length_cons, ofLE, toLE, hlow, hhigh, ih]

namespace Decoder

variable {α β : Type}

/-! ## Running composed decoders -/

@[simp] lemma pure_apply (a : α) (bs : Bytes) : (pure a : Decoder α) bs = .ok (a, bs) := rfl

@[simp] lemma refuse_apply (cause : Malformed) (bs : Bytes) :
    (refuse cause : Decoder α) bs = .error (.malformed cause) := rfl

@[simp] lemma throw_apply (e : DecodeError) (bs : Bytes) : (throw e : Decoder α) bs = .error e :=
  rfl

/-- After a success the next decoder goes on behind what was read. -/
lemma bind_apply_of_ok {d : Decoder α} {k : α → Decoder β} {bs rest : Bytes} {a : α}
    (h : d bs = .ok (a, rest)) : (d >>= k) bs = k a rest := by
  change (d bs >>= fun p => k p.1 p.2) = _
  rw [h]
  rfl

/-- A failure ends the whole read. -/
lemma bind_apply_of_error {d : Decoder α} {k : α → Decoder β} {bs : Bytes} {e : DecodeError}
    (h : d bs = .error e) : (d >>= k) bs = .error e := by
  change (d bs >>= fun p => k p.1 p.2) = _
  rw [h]
  rfl

/-- A composed read succeeds exactly when both parts do, one behind the other. -/
lemma bind_eq_ok_iff {d : Decoder α} {k : α → Decoder β} {bs rest : Bytes} {b : β} :
    (d >>= k) bs = .ok (b, rest) ↔ ∃ a mid, d bs = .ok (a, mid) ∧ k a mid = .ok (b, rest) := by
  cases h : d bs with
  | error e => simp [bind_apply_of_error h]
  | ok p =>
    obtain ⟨a, mid⟩ := p
    simp [bind_apply_of_ok h]

/-! ## The law -/

/-- The decoder reads back what the encoder writes, reads nothing else, and refuses what was
written of a value that does not fit. -/
structure Inverts (d : Decoder α) (enc : α → Bytes) (dom fits : α → Prop) : Prop where
  decode_encode : ∀ {a}, dom a → fits a → ∀ rest, d (enc a ++ rest) = .ok (a, rest)
  eq_encode : ∀ {bs rest a}, d bs = .ok (a, rest) → dom a ∧ fits a ∧ bs = enc a ++ rest
  refuses : ∀ {a}, dom a → ¬ fits a → ∀ rest, ∃ e, d (enc a ++ rest) = .error e

namespace Inverts

variable {d : Decoder α} {enc : α → Bytes} {dom fits : α → Prop}

/-- The law may be restated with an encoder and predicates that agree with the given ones. -/
lemma congr {enc' : α → Bytes} {dom' fits' : α → Prop} (h : d.Inverts enc dom fits)
    (henc : ∀ a, enc a = enc' a) (hdom : ∀ a, dom a ↔ dom' a)
    (hfits : ∀ a, dom a → (fits a ↔ fits' a)) : d.Inverts enc' dom' fits' := by
  obtain rfl : enc = enc' := funext henc
  obtain rfl : dom = dom' := funext fun a => propext (hdom a)
  refine ⟨fun ha hfit => h.decode_encode ha ((hfits _ ha).mpr hfit), fun hread => ?_,
    fun ha hfit => h.refuses ha fun hf => hfit ((hfits _ ha).mp hf)⟩
  obtain ⟨ha, hfit, hbs⟩ := h.eq_encode hread
  exact ⟨ha, (hfits _ ha).mp hfit, hbs⟩

/-- Once every field is known, nothing is left to read. -/
lemma pure {a₀ : α} (h : ∀ a, dom a ↔ a = a₀) :
    (Pure.pure a₀ : Decoder α).Inverts (fun _ => []) dom (fun _ => True) where
  decode_encode := by
    intro a ha _ rest
    rw [(h a).mp ha]
    rfl
  eq_encode := by
    intro bs rest a hread
    simp only [pure_apply, Except.ok.injEq, Prod.mk.injEq] at hread
    obtain ⟨rfl, rfl⟩ := hread
    exact ⟨(h _).mpr rfl, trivial, rfl⟩
  refuses := fun _ hfits => absurd trivial hfits

/-- A decoder that always refuses belongs to values none of which fits. -/
lemma refuse (cause : Malformed) (h : ∀ a, dom a → ¬ fits a) :
    (Decoder.refuse cause : Decoder α).Inverts enc dom fits where
  decode_encode := fun ha hfits => absurd hfits (h _ ha)
  eq_encode := fun hread => by simp at hread
  refuses := fun _ _ _ => ⟨_, rfl⟩

/-- One more field in front: the rest is read knowing that field. -/
lemma field {k : α → Decoder β} {encRest : β → Bytes} {domAll fitsRest : β → Prop} (proj : β → α)
    (hd : d.Inverts enc dom fits) (hproj : ∀ b, domAll b → dom (proj b))
    (hk : ∀ a, dom a → fits a →
      (k a).Inverts encRest (fun b => domAll b ∧ proj b = a) fitsRest) :
    (d >>= k).Inverts (fun b => enc (proj b) ++ encRest b) domAll
      (fun b => fits (proj b) ∧ fitsRest b) where
  decode_encode := by
    intro b hdom hfits rest
    have hfirst := hproj b hdom
    rw [List.append_assoc, bind_apply_of_ok (hd.decode_encode hfirst hfits.1 _)]
    exact (hk _ hfirst hfits.1).decode_encode ⟨hdom, rfl⟩ hfits.2 rest
  eq_encode := by
    intro bs rest b hread
    obtain ⟨a, mid, hfirst, hrest⟩ := bind_eq_ok_iff.mp hread
    obtain ⟨ha, hfits, rfl⟩ := hd.eq_encode hfirst
    obtain ⟨⟨hdom, rfl⟩, hfitsRest, rfl⟩ := (hk a ha hfits).eq_encode hrest
    exact ⟨hdom, ⟨hfits, hfitsRest⟩, (List.append_assoc ..).symm⟩
  refuses := by
    intro b hdom hfits rest
    have hfirst := hproj b hdom
    rw [List.append_assoc]
    by_cases hfit : fits (proj b)
    · obtain ⟨e, he⟩ :=
        (hk (proj b) hfirst hfit).refuses ⟨hdom, rfl⟩ (fun h => hfits ⟨hfit, h⟩) rest
      exact ⟨e, (bind_apply_of_ok (hd.decode_encode hfirst hfit _)).trans he⟩
    · obtain ⟨e, he⟩ := hd.refuses hfirst hfit (encRest b ++ rest)
      exact ⟨e, bind_apply_of_error he⟩

/-- A check of a field that has just been read, in front of the rest. -/
lemma guard {k : Decoder β} {cause : Malformed} {encRest : β → Bytes} {domAll fitsRest : β → Prop}
    (p : α → Prop) {a : α} [Decidable (p a)] (proj : β → α) (hproj : ∀ b, domAll b → proj b = a)
    (hk : ¬ p a → k.Inverts encRest domAll fitsRest) :
    (if p a then (do let r ← (Decoder.refuse cause : Decoder Unit); (fun _ => k) r)
      else k).Inverts encRest domAll (fun b => ¬ p (proj b) ∧ fitsRest b) := by
  split_ifs with ha
  · refine refuse cause fun b hb hfits => hfits.1 ?_
    rw [hproj b hb]
    exact ha
  · refine (hk ha).congr (fun _ => rfl) (fun _ => Iff.rfl) fun b hb => ?_
    rw [hproj b hb]
    exact (and_iff_right ha).symm

/-- A decoder that only wraps what another one reads. -/
lemma map {f : α → β} (g : β → α) (hd : d.Inverts enc dom fits)
    (hfg : ∀ a b, dom a → (g b = a ↔ b = f a)) :
    (d >>= fun a => Pure.pure (f a)).Inverts (fun b => enc (g b)) (fun b => dom (g b))
      (fun b => fits (g b)) := by
  refine (hd.field g (fun _ h => h) fun a ha _ => pure fun b => ?_).congr
    (fun b => List.append_nil _) (fun _ => Iff.rfl) (fun _ _ => by rw [and_true])
  rw [hfg a b ha]
  constructor
  · exact And.right
  · intro h
    exact ⟨((hfg a b ha).mpr h).symm ▸ ha, h⟩

/-- A decoder for one case of a type, read from what the case carries. -/
lemma image {enc' : β → Bytes} (hd : d.Inverts enc (fun _ => True) (fun _ => True)) (f : α → β)
    (henc : ∀ a, enc' (f a) = enc a) :
    (d >>= fun a => Pure.pure (f a)).Inverts enc' (fun b => ∃ a, b = f a) (fun _ => True) where
  decode_encode := by
    rintro _ ⟨a, rfl⟩ - rest
    rw [henc, bind_apply_of_ok (hd.decode_encode trivial trivial rest)]
    rfl
  eq_encode := by
    intro bs rest b hread
    obtain ⟨a, mid, hfirst, hpure⟩ := bind_eq_ok_iff.mp hread
    simp only [pure_apply, Except.ok.injEq, Prod.mk.injEq] at hpure
    obtain ⟨rfl, rfl⟩ := hpure
    exact ⟨⟨a, rfl⟩, trivial, by rw [henc, (hd.eq_encode hfirst).2.2]⟩
  refuses := fun _ h => absurd trivial h

/-- Reading the whole of a byte string: what is accepted is exactly the written form. -/
lemma decodeAll_eq_ok_iff (hd : d.Inverts enc dom fits) {bs : Bytes} {a : α} :
    decodeAll d bs = .ok a ↔ dom a ∧ fits a ∧ bs = enc a := by
  constructor
  · intro h
    unfold decodeAll at h
    split at h
    · rename_i b hread
      obtain rfl : b = a := by simpa using h
      simpa using hd.eq_encode hread
    · simp at h
    · simp at h
  · rintro ⟨hdom, hfits, rfl⟩
    have hread := hd.decode_encode hdom hfits []
    rw [List.append_nil] at hread
    rw [decodeAll, hread]

/-- Reading the whole of what was written of a value that does not fit is an error. -/
lemma decodeAll_eq_error (hd : d.Inverts enc dom fits) {a : α} (hdom : dom a) (hfits : ¬ fits a) :
    ∃ e, decodeAll d (enc a) = .error e := by
  obtain ⟨e, he⟩ := hd.refuses hdom hfits []
  rw [List.append_nil] at he
  exact ⟨e, by rw [decodeAll, he]⟩

end Inverts

end Decoder

end PeerNet
