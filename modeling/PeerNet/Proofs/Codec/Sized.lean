import PeerNet.Proofs.Codec.Basic
import PeerNet.Wire.CompactSize

/-!
# Numbers, lengths and what stands behind them

The law of `Decoder.Inverts` for the decoders from which every payload is built: raw bytes,
fixed-width numbers, lengths, and the three kinds of field that carry their own length.

A length is the one place where the encoder is not injective: from `2 ^ 64` on the low 64 bits are
written.  Under a cap below `2 ^ 32` that does no harm, because such a number is refused in any
case: either the eight bytes written are the longer form of a small number, or they stand for one
above the cap.
-/

namespace PeerNet

namespace Decoder

variable {α : Type}

/-! ## Raw bytes and fixed-width numbers -/

/-- Enough bytes are there: they are taken off the front. -/
lemma take_append {n : Nat} {bs : Bytes} (h : bs.length = n) (rest : Bytes) :
    take n (bs ++ rest) = .ok (bs, rest) := by
  subst h
  simp [take]

/-- Too few bytes are there. -/
lemma take_of_length_lt {n : Nat} {bs : Bytes} (h : bs.length < n) :
    take n bs = .error .unexpectedEnd := by
  have hlen : ¬ (bs.take n).length = n := by
    rw [List.length_take]
    omega
  simp only [take, if_neg hlen]

/-- Taking bytes splits them off the front. -/
lemma take_eq_ok_iff {n : Nat} {bs rest taken : Bytes} :
    take n bs = .ok (taken, rest) ↔ taken.length = n ∧ bs = taken ++ rest := by
  constructor
  · intro h
    by_cases hlen : bs.length < n
    · simp [take_of_length_lt hlen] at h
    · have htake : (bs.take n).length = n := by
        rw [List.length_take]
        omega
      simp only [take, if_pos htake, Except.ok.injEq, Prod.mk.injEq] at h
      obtain ⟨rfl, rfl⟩ := h
      exact ⟨htake, (List.take_append_drop n bs).symm⟩
  · rintro ⟨hlen, rfl⟩
    exact take_append hlen rest

/-- Raw bytes of a given number. -/
lemma take_inverts (n : Nat) :
    (take n).Inverts (fun bs => bs) (fun bs => bs.length = n) (fun _ => True) where
  decode_encode := fun h _ rest => take_append h rest
  eq_encode := fun h => by
    obtain ⟨hlen, rfl⟩ := take_eq_ok_iff.mp h
    exact ⟨hlen, trivial, rfl⟩
  refuses := fun _ h => absurd trivial h

/-- Raw bytes whose number is part of their type. -/
lemma fixed_inverts (n : Nat) :
    (fixed n).Inverts FixedBytes.toList (fun _ => True) (fun _ => True) where
  decode_encode := by
    rintro ⟨bs, rfl⟩ - - rest
    simp [fixed]
  eq_encode := by
    intro bs rest a h
    unfold fixed at h
    split at h
    · simp only [Except.ok.injEq, Prod.mk.injEq] at h
      obtain ⟨rfl, rfl⟩ := h
      exact ⟨trivial, trivial, (List.take_append_drop n bs).symm⟩
    · simp at h
  refuses := fun _ h => absurd trivial h

/-- Where fewer bytes are left than a part has, they end too soon. -/
lemma fixed_of_length_lt {n : Nat} {bs : Bytes} (h : bs.length < n) :
    fixed n bs = .error .unexpectedEnd := by
  have hlen : ¬ (bs.take n).length = n := by
    rw [List.length_take]
    omega
  exact dif_neg hlen

/-- Bytes may be passed over in two parts. -/
lemma pass_add (m n : Nat) (a : α) :
    (do let _ ← take (m + n); return a : Decoder α) =
      (do let _ ← fixed m; let _ ← take n; return a) := by
  funext bs
  rcases Nat.lt_or_ge bs.length m with hshort | hlong
  · rw [bind_apply_of_error (take_of_length_lt (Nat.lt_add_right n hshort)),
      bind_apply_of_error (fixed_of_length_lt hshort)]
  · obtain ⟨front, rest, rfl⟩ :
        ∃ (front : FixedBytes m) (rest : Bytes), bs = front.toList ++ rest :=
      ⟨⟨bs.take m, List.length_take_of_le hlong⟩, bs.drop m, (List.take_append_drop m bs).symm⟩
    rw [bind_apply_of_ok ((fixed_inverts m).decode_encode trivial trivial rest)]
    rcases Nat.lt_or_ge rest.length n with hless | hmore
    · have hall : (front.toList ++ rest).length < m + n := by
        rw [List.length_append, front.length_toList]
        omega
      rw [bind_apply_of_error (take_of_length_lt hless),
        bind_apply_of_error (take_of_length_lt hall)]
    · have hpassed : (rest.take n).length = n := List.length_take_of_le hmore
      have hall : (front.toList ++ rest.take n).length = m + n := by
        rw [List.length_append, front.length_toList, hpassed]
      rw [← List.take_append_drop n rest, bind_apply_of_ok (take_append hpassed _),
        ← List.append_assoc, bind_apply_of_ok (take_append hall _)]

lemma byte_cons (b : UInt8) (rest : Bytes) : byte (b :: rest) = .ok (b, rest) := rfl

/-- A single byte. -/
lemma byte_inverts : byte.Inverts (fun b => [b]) (fun _ => True) (fun _ => True) where
  decode_encode := fun _ _ _ => rfl
  eq_encode := by
    intro bs rest a h
    cases bs with
    | nil => simp [byte] at h
    | cons b bs =>
      simp only [byte, Except.ok.injEq, Prod.mk.injEq] at h
      obtain ⟨rfl, rfl⟩ := h
      exact ⟨trivial, trivial, rfl⟩
  refuses := fun _ h => absurd trivial h

/-- A little-endian number of a given width. -/
lemma littleEndian_inverts (width : Nat) :
    (littleEndian width).Inverts (toLE width) (fun n => n < 256 ^ width) (fun _ => True) := by
  refine ((take_inverts width).field (toLE width) (fun n _ => length_toLE width n)
    fun bs hlen _ => Inverts.pure fun n => ?_).congr (fun n => List.append_nil _)
    (fun _ => Iff.rfl) (fun _ _ => by rw [and_true])
  constructor
  · rintro ⟨hn, rfl⟩
    exact (ofLE_toLE_of_lt hn).symm
  · rintro rfl
    subst hlen
    exact ⟨ofLE_lt bs, toLE_ofLE bs⟩

lemma u16_inverts : u16.Inverts (fun x => toLE 2 x.toNat) (fun _ => True) (fun _ => True) := by
  refine ((littleEndian_inverts 2).map UInt16.toNat fun n x hn => ?_).congr (fun _ => rfl)
    (fun x => iff_true_intro x.toNat_lt) (fun _ _ => Iff.rfl)
  have hlt : n < 2 ^ 16 := hn
  rw [← UInt16.toNat_inj, UInt16.toNat_ofNat', Nat.mod_eq_of_lt hlt]

lemma u32_inverts : u32.Inverts (fun x => toLE 4 x.toNat) (fun _ => True) (fun _ => True) := by
  refine ((littleEndian_inverts 4).map UInt32.toNat fun n x hn => ?_).congr (fun _ => rfl)
    (fun x => iff_true_intro x.toNat_lt) (fun _ _ => Iff.rfl)
  have hlt : n < 2 ^ 32 := hn
  rw [← UInt32.toNat_inj, UInt32.toNat_ofNat', Nat.mod_eq_of_lt hlt]

lemma u64_inverts : u64.Inverts (fun x => toLE 8 x.toNat) (fun _ => True) (fun _ => True) := by
  refine ((littleEndian_inverts 8).map UInt64.toNat fun n x hn => ?_).congr (fun _ => rfl)
    (fun x => iff_true_intro x.toNat_lt) (fun _ _ => Iff.rfl)
  have hlt : n < 2 ^ 64 := hn
  rw [← UInt64.toNat_inj, UInt64.toNat_ofNat', Nat.mod_eq_of_lt hlt]

/-- A signed number of two bytes is read back from its two's complement. -/
lemma i16_inverts :
    i16.Inverts (fun x => toLE 2 x.toUInt16.toNat) (fun _ => True) (fun _ => True) := by
  refine u16_inverts.map Int16.toUInt16 fun n x _ => ?_
  constructor
  · rintro rfl
    exact (Int16.toInt16_toUInt16 x).symm
  · rintro rfl
    rfl

end Decoder

/-! ## Lengths -/

namespace CompactSize

/-- The marker of a one-byte length is the length itself. -/
lemma toNat_le_of_extension_eq_zero {marker : UInt8} (h : extension marker = 0) :
    marker.toNat ≤ 0xFC := by
  have hfd : marker ≠ 0xFD := by
    rintro rfl
    exact absurd h (by decide)
  have hfe : marker ≠ 0xFE := by
    rintro rfl
    exact absurd h (by decide)
  have hff : marker ≠ 0xFF := by
    rintro rfl
    exact absurd h (by decide)
  have hlt := marker.toNat_lt
  simp only [ne_eq, ← UInt8.toNat_inj, UInt8.reduceToNat] at hfd hfe hff
  omega

/-- The three longer forms. -/
lemma extension_cases {marker : UInt8} (h : extension marker ≠ 0) :
    marker = 0xFD ∧ extension marker = 2 ∨ marker = 0xFE ∧ extension marker = 4 ∨
      marker = 0xFF ∧ extension marker = 8 := by
  unfold extension at h ⊢
  split_ifs at h ⊢ with h1 h2 h3
  · exact .inl ⟨h1, rfl⟩
  · exact .inr (.inl ⟨h2, rfl⟩)
  · exact .inr (.inr ⟨h3, rfl⟩)
  · exact absurd rfl h

lemma decoder_nil : decoder [] = .error .unexpectedEnd := rfl

/-- A one-byte length. -/
lemma decoder_cons_of_extension_eq_zero {marker : UInt8} (h : extension marker = 0)
    (rest : Bytes) : decoder (marker :: rest) = .ok (marker.toNat, rest) := by
  unfold decoder
  rw [Decoder.bind_apply_of_ok (Decoder.byte_cons marker rest)]
  simp [h]

/-- A longer length: it is accepted if no shorter form would do. -/
lemma decoder_cons_append {marker : UInt8} {digits : Bytes} (h : extension marker ≠ 0)
    (hdigits : digits.length = extension marker) (rest : Bytes) :
    decoder (marker :: (digits ++ rest)) =
      if ofLE digits < leastOfWidth (extension marker) then .error .nonMinimalLength
      else .ok (ofLE digits, rest) := by
  have hread : Decoder.littleEndian (extension marker) (digits ++ rest) =
      .ok (ofLE digits, rest) :=
    (Decoder.bind_apply_of_ok (Decoder.take_append hdigits rest)).trans rfl
  unfold decoder
  rw [Decoder.bind_apply_of_ok (Decoder.byte_cons marker (digits ++ rest))]
  simp only [if_neg h]
  rw [Decoder.bind_apply_of_ok hread]
  split <;> rfl

/-- A longer length of which not all bytes are there. -/
lemma decoder_cons_of_length_lt {marker : UInt8} {digits : Bytes}
    (h : digits.length < extension marker) :
    decoder (marker :: digits) = .error .unexpectedEnd := by
  have hread : Decoder.littleEndian (extension marker) digits = .error .unexpectedEnd :=
    Decoder.bind_apply_of_error (Decoder.take_of_length_lt h)
  unfold decoder
  rw [Decoder.bind_apply_of_ok (Decoder.byte_cons marker digits)]
  simp only [if_neg (Nat.ne_of_gt (Nat.zero_lt_of_lt h))]
  rw [Decoder.bind_apply_of_error hread]

/-- Above `0xFC` the shortest form is a marker with as many bytes as the number needs.  The marker
for eight bytes also stands in front of the numbers that have no form at all. -/
lemma encode_eq_cons_toLE {n : Nat} (h : 0xFC < n) :
    ∃ marker, extension marker ≠ 0 ∧ encode n = marker :: toLE (extension marker) n ∧
      leastOfWidth (extension marker) ≤ n ∧ (n < 2 ^ 64 → n < 256 ^ extension marker) ∧
      (2 ^ 64 ≤ n → marker = 0xFF) := by
  unfold encode
  split_ifs with h1 h2 h3
  · exact absurd h (by omega)
  · exact ⟨0xFD, by decide, rfl, Nat.lt_iff_add_one_le.mp h, fun _ => Nat.lt_succ_of_le h2,
      fun hbig => by omega⟩
  · exact ⟨0xFE, by decide, rfl, Nat.lt_iff_add_one_le.mp (by omega),
      fun _ => Nat.lt_succ_of_le h3, fun hbig => by omega⟩
  · exact ⟨0xFF, by decide, rfl, Nat.lt_iff_add_one_le.mp (by omega), fun hlt => hlt,
      fun _ => rfl⟩

/-- The length that an accepted longer form stands for has that form. -/
lemma encode_ofLE {marker : UInt8} {digits : Bytes} (h : extension marker ≠ 0)
    (hdigits : digits.length = extension marker)
    (hleast : leastOfWidth (extension marker) ≤ ofLE digits) :
    encode (ofLE digits) = marker :: digits := by
  have hlt := ofLE_lt digits
  have hback : toLE (extension marker) (ofLE digits) = digits := hdigits ▸ toLE_ofLE digits
  rw [hdigits] at hlt
  rcases extension_cases h with ⟨rfl, hw⟩ | ⟨rfl, hw⟩ | ⟨rfl, hw⟩ <;> rw [hw] at hlt hback hleast
  · have h1 : ¬ ofLE digits ≤ 0xFC := Nat.not_le_of_gt hleast
    have h2 : ofLE digits ≤ 0xFFFF := Nat.le_of_lt_succ hlt
    rw [encode, if_neg h1, if_pos h2, hback]
  · have h1 : 0x1_0000 ≤ ofLE digits := hleast
    have h2 : ofLE digits ≤ 0xFFFF_FFFF := Nat.le_of_lt_succ hlt
    rw [encode, if_neg (by omega), if_neg (by omega), if_pos h2, hback]
  · have h1 : 0x1_0000_0000 ≤ ofLE digits := hleast
    rw [encode, if_neg (by omega), if_neg (by omega), if_neg (by omega), hback]

/-- Up to `0xFC` the single byte written is the number itself. -/
lemma toNat_ofNat {n : Nat} (h : n ≤ 0xFC) : (UInt8.ofNat n).toNat = n :=
  UInt8.toNat_ofNat_of_lt (Nat.lt_of_le_of_lt h (by decide))

/-- Up to `0xFC` the single byte written is no marker. -/
lemma extension_ofNat {n : Nat} (h : n ≤ 0xFC) : extension (UInt8.ofNat n) = 0 := by
  have hbyte := toNat_ofNat h
  by_contra hw
  rcases extension_cases hw with ⟨hm, -⟩ | ⟨hm, -⟩ | ⟨hm, -⟩ <;>
    rw [hm] at hbyte <;> simp only [UInt8.reduceToNat] at hbyte <;> omega

/-- Every number with a written form is read back, and only the shortest form is read. -/
lemma decoder_inverts : decoder.Inverts encode (fun n => n < 2 ^ 64) (fun _ => True) where
  decode_encode := by
    intro n hn _ rest
    rcases Nat.lt_or_ge 0xFC n with h | h
    · obtain ⟨marker, hw, henc, hleast, hlt, -⟩ := encode_eq_cons_toLE h
      have hval : ofLE (toLE (extension marker) n) = n := ofLE_toLE_of_lt (hlt hn)
      rw [henc, List.cons_append, decoder_cons_append hw (length_toLE _ n), hval,
        if_neg (Nat.not_lt.mpr hleast)]
    · rw [encode, if_pos h, List.cons_append, List.nil_append,
        decoder_cons_of_extension_eq_zero (extension_ofNat h), toNat_ofNat h]
  eq_encode := by
    intro bs rest n hread
    cases bs with
    | nil => simp [decoder_nil] at hread
    | cons marker tail =>
      by_cases hw : extension marker = 0
      · rw [decoder_cons_of_extension_eq_zero hw] at hread
        simp only [Except.ok.injEq, Prod.mk.injEq] at hread
        obtain ⟨rfl, rfl⟩ := hread
        have hle := toNat_le_of_extension_eq_zero hw
        exact ⟨by omega, trivial, by rw [encode, if_pos hle, UInt8.ofNat_toNat]; rfl⟩
      · rcases Nat.lt_or_ge tail.length (extension marker) with hlen | hlen
        · simp [decoder_cons_of_length_lt hlen] at hread
        · -- The bytes behind the marker are there: split them off.
          have hdigits : (tail.take (extension marker)).length = extension marker :=
            List.length_take_of_le hlen
          rw [← List.take_append_drop (extension marker) tail,
            decoder_cons_append hw hdigits] at hread
          split_ifs at hread with hleast
          simp only [Except.ok.injEq, Prod.mk.injEq] at hread
          obtain ⟨rfl, rfl⟩ := hread
          refine ⟨?_, trivial, ?_⟩
          · have hlt := ofLE_lt (tail.take (extension marker))
            rw [hdigits] at hlt
            have hwide : extension marker ≤ 8 := by
              rcases extension_cases hw with ⟨-, h⟩ | ⟨-, h⟩ | ⟨-, h⟩ <;> omega
            exact hlt.trans_le (Nat.pow_le_pow_right (by decide) hwide)
          · rw [encode_ofLE hw hdigits (Nat.not_lt.mp hleast), List.cons_append,
              List.take_append_drop]
  refuses := fun _ h => absurd trivial h

/-- A length takes as many bytes as the encoder reports. -/
lemma length_encode (n : Nat) : (encode n).length = encodedSize n := by
  unfold encode encodedSize
  split_ifs <;> simp

end CompactSize

namespace Decoder

variable {α : Type}

/-- What `lengthUpTo` makes of a length that has been read. -/
lemma lengthUpTo_of_ok {maximum n : Nat} {bs rest : Bytes}
    (h : CompactSize.decoder bs = .ok (n, rest)) :
    lengthUpTo maximum bs =
      if n > maximum then .error (.oversized n maximum) else .ok (n, rest) := by
  unfold lengthUpTo
  rw [bind_apply_of_ok h]
  dsimp only
  split <;> rfl

/-- A number that has no written form is refused under every small cap. -/
lemma lengthUpTo_encode_of_ge {maximum n : Nat} (hmax : maximum < 2 ^ 32) (hn : 2 ^ 64 ≤ n)
    (rest : Bytes) : ∃ e, lengthUpTo maximum (CompactSize.encode n ++ rest) = .error e := by
  obtain ⟨marker, hw, henc, -, -, hmarker⟩ := CompactSize.encode_eq_cons_toLE (n := n) (by omega)
  obtain rfl := hmarker hn
  have hread := CompactSize.decoder_cons_append hw (length_toLE _ n) rest
  rw [henc, List.cons_append]
  -- Eight bytes follow the marker: the longer form of a small number, or a number above the cap.
  split_ifs at hread with hleast
  · exact ⟨_, bind_apply_of_error hread⟩
  · refine ⟨_, (lengthUpTo_of_ok hread).trans (if_pos ?_)⟩
    have hbig : 0x1_0000_0000 ≤ ofLE (toLE (CompactSize.extension 0xFF) n) :=
      Nat.not_lt.mp hleast
    omega

/-- A length under a cap. -/
lemma lengthUpTo_inverts {maximum : Nat} (hmax : maximum < 2 ^ 32) :
    (lengthUpTo maximum).Inverts CompactSize.encode (fun _ => True) (fun n => n ≤ maximum) where
  decode_encode := by
    intro n _ hn rest
    have hread := CompactSize.decoder_inverts.decode_encode (a := n) (by omega) trivial rest
    rw [lengthUpTo_of_ok hread, if_neg (Nat.not_lt.mpr hn)]
  eq_encode := by
    intro bs rest n hread
    obtain ⟨m, mid, hfirst, -⟩ := bind_eq_ok_iff.mp hread
    rw [lengthUpTo_of_ok hfirst] at hread
    split_ifs at hread with hle
    simp only [Except.ok.injEq, Prod.mk.injEq] at hread
    obtain ⟨rfl, rfl⟩ := hread
    exact ⟨trivial, Nat.not_lt.mp hle, (CompactSize.decoder_inverts.eq_encode hfirst).2.2⟩
  refuses := by
    intro n _ hn rest
    rcases Nat.lt_or_ge n (2 ^ 64) with hlt | hge
    · have hread := CompactSize.decoder_inverts.decode_encode hlt trivial rest
      exact ⟨_, (lengthUpTo_of_ok hread).trans (if_pos (Nat.lt_of_not_le hn))⟩
    · exact lengthUpTo_encode_of_ge hmax hge rest

/-! ## Fields with a length of their own -/

/-- A byte string behind its length. -/
lemma sizedBytes_inverts {maximum : Nat} (hmax : maximum < 2 ^ 32) :
    (sizedBytes maximum).Inverts encodeSizedBytes (fun _ => True)
      (fun bs => bs.length ≤ maximum) := by
  refine ((lengthUpTo_inverts hmax).field List.length (fun _ _ => trivial) fun n _ _ =>
    (take_inverts n).congr (fun _ => rfl) (fun bs => ?_) (fun _ _ => Iff.rfl)).congr
    (fun _ => rfl) (fun _ => Iff.rfl) (fun bs _ => by rw [and_true])
  rw [true_and]

/-- A text stands for its UTF-8 bytes, and for no others. -/
lemma utf8Bytes_eq_iff {bs : Bytes} (h : (⟨bs.toArray⟩ : ByteArray).IsValidUTF8) (t : String) :
    utf8Bytes t = bs ↔ t = String.fromUTF8 ⟨bs.toArray⟩ h := by
  constructor
  · rintro rfl
    apply String.toByteArray_inj.mp
    rfl
  · rintro rfl
    rfl

/-- Text in strict UTF-8 read from bytes that have been taken already. -/
lemma orRefuse_fromUTF8?_inverts (bs : Bytes) (cause : Malformed) :
    (orRefuse (String.fromUTF8? ⟨bs.toArray⟩) cause).Inverts (fun _ => [])
      (fun t => True ∧ utf8Bytes t = bs) (fun _ => True) := by
  by_cases h : (⟨bs.toArray⟩ : ByteArray).IsValidUTF8
  · have hread : String.fromUTF8? ⟨bs.toArray⟩ = some (String.fromUTF8 ⟨bs.toArray⟩ h) := dif_pos h
    rw [hread]
    exact Inverts.pure fun t => by rw [true_and, utf8Bytes_eq_iff h]
  · have hread : String.fromUTF8? ⟨bs.toArray⟩ = none := dif_neg h
    rw [hread]
    refine Inverts.refuse cause fun t ht => ?_
    have hvalid : (⟨(utf8Bytes t).toArray⟩ : ByteArray).IsValidUTF8 := t.isValidUTF8
    rw [ht.2] at hvalid
    exact absurd hvalid h

/-- Text behind the number of its bytes. -/
lemma sizedText_inverts {maximum : Nat} (hmax : maximum < 2 ^ 32) :
    (sizedText maximum).Inverts encodeSizedText (fun _ => True)
      (fun t => t.utf8ByteSize ≤ maximum) := by
  refine ((sizedBytes_inverts hmax).field utf8Bytes (fun _ _ => trivial) fun bs _ _ =>
    orRefuse_fromUTF8?_inverts bs .textNotUtf8).congr (fun t => List.append_nil _)
    (fun _ => Iff.rfl) (fun t _ => ?_)
  rw [and_true]
  rfl

/-! ### Lists -/

variable {item : Decoder α} {enc : α → Bytes} {dom fits : α → Prop}

/-- Items that have been read already come first. -/
lemma itemsOnto_eq (item : Decoder α) (n : Nat) (read : List α) (bs : Bytes) :
    itemsOnto item n read bs =
      (items item n bs).map fun p => (read.reverse ++ p.1, p.2) := by
  induction n generalizing read bs with
  | zero => simp [items, itemsOnto, Except.map]
  | succ n ih =>
    unfold items itemsOnto
    cases h : item bs with
    | error e => rfl
    | ok p =>
      obtain ⟨a, mid⟩ := p
      dsimp only
      rw [ih (a :: read) mid, ih [a] mid]
      cases items item n mid <;> simp [Except.map]

lemma items_zero (item : Decoder α) (bs : Bytes) : items item 0 bs = .ok ([], bs) := rfl

/-- A list of items is read from the front. -/
lemma items_succ (item : Decoder α) (n : Nat) :
    items item (n + 1) = (do return (← item) :: (← items item n)) := by
  funext bs
  cases h : item bs with
  | error e =>
    rw [bind_apply_of_error h]
    simp [items, itemsOnto, h]
  | ok p =>
    obtain ⟨a, mid⟩ := p
    rw [bind_apply_of_ok h]
    have hread : items item (n + 1) bs = itemsOnto item n [a] mid := by
      simp [items, itemsOnto, h]
    rw [hread, itemsOnto_eq]
    cases hrest : items item n mid with
    | error e => rw [bind_apply_of_error hrest]; rfl
    | ok q => rw [bind_apply_of_ok hrest]; rfl

/-- A list of items is read exactly if its front and the remaining items are. -/
lemma items_succ_eq_ok_iff {n : Nat} {bs rest : Bytes} {xs : List α} :
    items item (n + 1) bs = .ok (xs, rest) ↔
      ∃ a as mid, item bs = .ok (a, mid) ∧ items item n mid = .ok (as, rest) ∧ xs = a :: as := by
  rw [items_succ, bind_eq_ok_iff]
  constructor
  · rintro ⟨a, mid, hfront, hread⟩
    obtain ⟨as, last, hrest, hpure⟩ := bind_eq_ok_iff.mp hread
    simp only [pure_apply, Except.ok.injEq, Prod.mk.injEq] at hpure
    obtain ⟨rfl, rfl⟩ := hpure
    exact ⟨a, as, mid, hfront, hrest, rfl⟩
  · rintro ⟨a, as, mid, hfront, hrest, rfl⟩
    exact ⟨a, mid, hfront, bind_eq_ok_iff.mpr ⟨as, rest, hrest, rfl⟩⟩

/-- A given number of items, one behind the other. -/
lemma items_inverts (h : item.Inverts enc dom fits) (n : Nat) :
    (items item n).Inverts (fun xs => xs.flatMap enc)
      (fun xs => (∀ x ∈ xs, dom x) ∧ xs.length = n) (fun xs => ∀ x ∈ xs, fits x) where
  decode_encode := by
    rintro xs ⟨hdom, rfl⟩ hfits rest
    induction xs with
    | nil => rfl
    | cons x xs ih =>
      simp only [List.mem_cons, forall_eq_or_imp] at hdom hfits
      refine items_succ_eq_ok_iff.mpr ⟨x, xs, xs.flatMap enc ++ rest, ?_, ih hdom.2 hfits.2, rfl⟩
      rw [List.flatMap_cons, List.append_assoc]
      exact h.decode_encode hdom.1 hfits.1 _
  eq_encode := by
    induction n with
    | zero =>
      intro bs rest xs hread
      simp only [items_zero, Except.ok.injEq, Prod.mk.injEq] at hread
      obtain ⟨rfl, rfl⟩ := hread
      simp
    | succ n ih =>
      intro bs rest xs hread
      obtain ⟨a, as, mid, hfront, hrest, rfl⟩ := items_succ_eq_ok_iff.mp hread
      obtain ⟨hdom, hfits, rfl⟩ := h.eq_encode hfront
      obtain ⟨⟨hdoms, rfl⟩, hfitss, rfl⟩ := ih hrest
      simp only [List.mem_cons, forall_eq_or_imp, List.length_cons, List.flatMap_cons,
        List.append_assoc]
      exact ⟨⟨⟨hdom, hdoms⟩, trivial⟩, ⟨hfits, hfitss⟩, trivial⟩
  refuses := by
    rintro xs ⟨hdom, rfl⟩ hfits rest
    induction xs with
    | nil => exact absurd (by simp) hfits
    | cons x xs ih =>
      simp only [List.mem_cons, forall_eq_or_imp] at hdom hfits
      rw [List.length_cons, items_succ, List.flatMap_cons, List.append_assoc]
      by_cases hx : fits x
      · -- The front is read, so it is one of the others that does not fit.
        obtain ⟨e, he⟩ := ih hdom.2 (fun hxs => hfits ⟨hx, hxs⟩)
        rw [bind_apply_of_ok (h.decode_encode hdom.1 hx _)]
        exact ⟨e, bind_apply_of_error he⟩
      · obtain ⟨e, he⟩ := h.refuses hdom.1 hx (xs.flatMap enc ++ rest)
        exact ⟨e, bind_apply_of_error he⟩

/-- A list behind its count. -/
lemma sizedList_inverts (h : item.Inverts enc dom fits) {maximum : Nat} (hmax : maximum < 2 ^ 32) :
    (sizedList item maximum).Inverts (encodeSizedList enc) (fun xs => ∀ x ∈ xs, dom x)
      (fun xs => xs.length ≤ maximum ∧ ∀ x ∈ xs, fits x) :=
  (lengthUpTo_inverts hmax).field List.length (fun _ _ => trivial) fun n _ _ => items_inverts h n

end Decoder

end PeerNet
