import PeerNet.Proofs.Frame.Reader
import PeerNet.Proofs.Message.Frame

/-!
# The reader and the decoder agree

The boundaries of a frame are found twice: the reader works the payload size out by itself and cuts
the frame off the stream, and the decoder reads the size as a length, which it takes only in its
shortest form.  Both accept the same frames.  What the decoder accepts is the frame of a payload
whose length is written in the shortest form, and on such a frame the reader finds the same size; a
frame cut off by the reader goes through the decoder in the end.
-/

namespace PeerNet

open Message

/-- The size that the shortest form of a length announces is that length. -/
lemma Front.announced_encode {n : Nat} (h : n < 2 ^ 64) :
    ∃ marker digits, CompactSize.encode n = marker :: digits ∧
      digits.length = CompactSize.extension marker ∧ announced marker digits = n := by
  rcases Nat.lt_or_ge 0xFC n with hn | hn
  · obtain ⟨marker, hwidth, hencode, -, hlt, -⟩ := CompactSize.encode_eq_cons_toLE hn
    refine ⟨marker, _, hencode, length_toLE _ n, ?_⟩
    rw [announced, if_neg hwidth, ofLE_toLE_of_lt (hlt h)]
  · have hwidth := CompactSize.extension_ofNat hn
    refine ⟨UInt8.ofNat n, [], by rw [CompactSize.encode, if_pos hn], hwidth.symm, ?_⟩
    rw [announced, if_pos hwidth, CompactSize.toNat_ofNat hn]

/-- A payload behind its length stands at the front as a frame. -/
lemma Front.of_frame {flags : UInt8} (hflags : isCompressed flags = false) (command : UInt8)
    {payload : Bytes} (hsize : payload.length ≤ maxPayloadSize) (rest : Bytes) :
    Front.of (flags :: command :: (encodeSizedBytes payload ++ rest)) =
      .frame (2 + (encodeSizedBytes payload).length) := by
  have hmax : maxPayloadSize < 2 ^ 64 := by decide
  obtain ⟨marker, digits, hencode, hdigits, hannounced⟩ :=
    announced_encode (n := payload.length) (by omega)
  have hthere : ¬ (payload ++ rest).length < payload.length := by
    rw [List.length_append]
    omega
  rw [encodeSizedBytes, hencode, List.cons_append, List.cons_append, List.append_assoc,
    of_cons_append hflags hdigits, hannounced, ofSize, if_neg (Nat.not_lt.mpr hsize),
    if_neg hthere, ← hdigits, FrameReader.headerSize, List.length_cons, List.length_append]
  congr 1
  omega

/-- A front that is read as a message is one for the decoder. -/
lemma decoder_of_firstRead {ended : Bool} {b : Bytes} {m : Message} {used : Nat}
    (h : firstRead ended b = some (.ok m, used)) : decoder b = .ok (m, b.drop used) := by
  have hdecode : decode (b.take used) = .ok m := by
    unfold firstRead at h
    split at h
    · split_ifs at h
      simp at h
    · simp at h
    · simp at h
    · simp only [Option.some.injEq, Prod.mk.injEq] at h
      obtain ⟨hresult, rfl⟩ := h
      cases hread : decode (b.take _) with
      | error e => simp [hread, Except.mapError] at hresult
      | ok m' => simpa [hread, Except.mapError] using hresult
  obtain ⟨flags, c, payload, hflags, hsize, hb, hpayload⟩ :=
    exists_of_decoder_eq_ok (decode_eq_ok_iff.mp hdecode)
  have hsplit : flags :: c.code :: (encodeSizedBytes payload ++ b.drop used) = b := by
    have hcat := List.take_append_drop used b
    rw [hb, List.append_nil] at hcat
    exact hcat
  have hread := decoder_frame flags hflags c hsize (b.drop used)
  rw [hpayload, hsplit] at hread
  exact hread

/-- A message for the decoder is one for the reader, of the same length. -/
lemma firstRead_of_decoder {b rest : Bytes} {m : Message} (h : decoder b = .ok (m, rest))
    (ended : Bool) :
    ∃ used, firstRead ended b = some (.ok m, used) ∧ b.drop used = rest := by
  obtain ⟨flags, c, payload, hflags, hsize, rfl, hpayload⟩ := exists_of_decoder_eq_ok h
  have hfront := Front.of_frame hflags c.code hsize rest
  have hframe := decoder_frame flags hflags c hsize []
  rw [List.append_nil, hpayload] at hframe
  have hlen : 2 + (encodeSizedBytes payload).length =
      (flags :: c.code :: encodeSizedBytes payload).length := by
    simp only [List.length_cons]
    omega
  have htake : (flags :: c.code :: (encodeSizedBytes payload ++ rest)).take
      (flags :: c.code :: encodeSizedBytes payload).length =
        flags :: c.code :: encodeSizedBytes payload := List.take_left
  refine ⟨(flags :: c.code :: encodeSizedBytes payload).length, ?_, List.drop_left⟩
  rw [firstRead, hfront, hlen]
  dsimp only
  rw [htake, decode_eq_ok_iff.mpr hframe]
  rfl

/-- What the decoder leaves is an end of what it was given. -/
lemma suffix_of_decoder {b rest : Bytes} {m : Message} (h : decoder b = .ok (m, rest)) :
    rest <:+ b := by
  obtain ⟨used, -, rfl⟩ := firstRead_of_decoder h false
  exact List.drop_suffix used b

/-- A length that is longer than it needs to be is not accepted by the decoder. -/
lemma decoder_of_nonMinimal {flags command marker : UInt8} {digits : Bytes}
    (hdigits : digits.length = CompactSize.extension marker)
    (hleast : ofLE digits < CompactSize.leastOfWidth (CompactSize.extension marker))
    (tail : Bytes) : ∃ e, decoder (flags :: command :: marker :: (digits ++ tail)) = .error e := by
  have hwidth : CompactSize.extension marker ≠ 0 := by
    intro hzero
    rw [hzero] at hleast
    exact absurd hleast (Nat.not_lt_zero _)
  have hrefused := CompactSize.decoder_cons_append hwidth hdigits tail
  rw [if_pos hleast] at hrefused
  cases hread : decoder (flags :: command :: marker :: (digits ++ tail)) with
  | error e => exact ⟨e, rfl⟩
  | ok p =>
    -- An accepted frame has its length in the shortest form.
    obtain ⟨m, rest⟩ := p
    obtain ⟨_, c, payload, -, hsize, hb, -⟩ := exists_of_decoder_eq_ok hread
    have hmax : maxPayloadSize < 2 ^ 64 := by decide
    have haccepted := CompactSize.decoder_inverts.decode_encode (a := payload.length) (by omega)
      trivial (payload ++ rest)
    simp only [List.cons.injEq] at hb
    rw [hb.2.2, encodeSizedBytes, List.append_assoc, haccepted] at hrefused
    exact absurd hrefused (by simp)

namespace FrameReader

section Answers

variable {b rest : Bytes} {ended : Bool} {next : FrameReader} {outcome : Outcome}

/-- A read is answered with a message exactly if the decoder accepts it, and leaves the same. -/
lemma Answers.ok_iff (h : Answers ended b next rest outcome) (m : Message) (left : Bytes) :
    outcome = .finished (.ok m) ∧ rest = left ↔ decoder b = .ok (m, left) := by
  constructor
  · rintro ⟨rfl, rfl⟩
    cases h with
    | finished used hfirst hrest hnext =>
      rw [hrest]
      exact decoder_of_firstRead hfirst
  · intro hdecoder
    obtain ⟨used, hfirst, hleft⟩ := firstRead_of_decoder hdecoder ended
    cases h with
    | waiting hnone hnext =>
      rw [hfirst] at hnone
      exact absurd hnone (by simp)
    | finished used' hfirst' hrest hnext =>
      rw [hfirst, Option.some.injEq, Prod.mk.injEq] at hfirst'
      obtain ⟨rfl, rfl⟩ := hfirst'
      exact ⟨rfl, hrest.trans hleft⟩

/-- A read that is not answered with a message is refused by the decoder. -/
lemma Answers.decoder_eq_error (h : Answers ended b next rest outcome)
    (hno : ∀ m, outcome ≠ .finished (.ok m)) : ∃ e, decoder b = .error e := by
  cases hdecoder : decoder b with
  | error e => exact ⟨e, rfl⟩
  | ok p => exact absurd ((h.ok_iff p.1 p.2).mpr hdecoder).1 (hno p.1)

end Answers

/-- A fresh reader reads a message off the front of a byte string, whether or not the stream ends
behind it, exactly if the decoder does, and both leave the same bytes.  Where the reader has an
error, or waits, the decoder has an error; and neither takes a length longer than it needs to be. -/
theorem read_start_iff_decoder (limit : Nat) (b : Bytes) (ended : Bool) :
    (∀ m rest,
      (∃ next, start.read limit (.ofStream b ended) =
        (next, .ofStream rest ended, .finished (.ok m))) ↔ decoder b = .ok (m, rest)) ∧
    (∀ m rest, decoder b = .ok (m, rest) → rest <:+ b) ∧
    (∀ next inlet e, start.read limit (.ofStream b ended) = (next, inlet, .finished (.error e)) →
      ∃ e', decoder b = .error e') ∧
    (∀ next inlet, start.read limit (.ofStream b ended) = (next, inlet, .waiting) →
      ∃ e', decoder b = .error e') ∧
    (∀ flags command marker digits tail, b = flags :: command :: marker :: (digits ++ tail) →
      digits.length = CompactSize.extension marker →
      ofLE digits < CompactSize.leastOfWidth (CompactSize.extension marker) →
      (∃ e, decoder b = .error e) ∧
      ∀ next inlet m,
        start.read limit (.ofStream b ended) ≠ (next, inlet, .finished (.ok m))) := by
  obtain ⟨next, rest, outcome, hread, -, hanswers⟩ := read_spec limit valid_start b ended
  change Answers ended b next rest outcome at hanswers
  rw [hread]
  refine ⟨fun m left => ?_, fun m left => suffix_of_decoder, fun _ _ e h => ?_, fun _ _ h => ?_,
    fun flags command marker digits tail hb hdigits hleast => ?_⟩
  · rw [← hanswers.ok_iff]
    constructor
    · rintro ⟨_, h⟩
      simp only [Prod.mk.injEq, Inlet.ofStream, Inlet.mk.injEq, and_true] at h
      exact ⟨h.2.2, h.2.1⟩
    · rintro ⟨rfl, rfl⟩
      exact ⟨next, rfl⟩
  · simp only [Prod.mk.injEq] at h
    exact hanswers.decoder_eq_error fun m hm => by simp [h.2.2] at hm
  · simp only [Prod.mk.injEq] at h
    exact hanswers.decoder_eq_error fun m hm => by simp [h.2.2] at hm
  · obtain ⟨e, he⟩ : ∃ e, decoder b = .error e := hb ▸ decoder_of_nonMinimal hdigits hleast tail
    refine ⟨⟨e, he⟩, fun _ _ m h => ?_⟩
    simp only [Prod.mk.injEq] at h
    have hok := (hanswers.ok_iff m rest).mp ⟨h.2.2, rfl⟩
    rw [he] at hok
    exact absurd hok (by simp)

/-- A ping with a byte behind it is read by both, and both leave the byte. -/
theorem read_start_ping_with_byte :
    ∃ next, start.read 0 (.ofStream ((ping ⟨7, 8, 9⟩).encode ++ [0xAA]) false) =
      (next, .ofStream [0xAA] false, .finished (.ok (ping ⟨7, 8, 9⟩))) :=
  ((read_start_iff_decoder 0 ((ping ⟨7, 8, 9⟩).encode ++ [0xAA]) false).1 _ _).mpr (by rfl)

end FrameReader

end PeerNet
