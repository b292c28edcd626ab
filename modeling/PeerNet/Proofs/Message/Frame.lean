import PeerNet.Proofs.Message.Limits

/-!
# Frames

A frame is a flags byte, a command byte, and a payload behind its length.  Here the decoder of a
whole message is taken apart into these three: what it makes of a frame is what `decodePayload`
makes of the payload, everything it accepts is such a frame, and of a frame that has not arrived
completely it says that the input ends too early.

The flags byte is looked at once, for its lowest bit; the other seven bits never matter.
-/

namespace PeerNet

open Decoder

/-! ## Incomplete fields -/

/-- A proper prefix is shorter. -/
lemma length_lt_of_properPrefix {p bs : Bytes} (hpre : p <+: bs) (hproper : p ≠ bs) :
    p.length < bs.length :=
  Nat.lt_of_le_of_ne hpre.length_le fun h => hproper (hpre.eq_of_length h)

/-- A length that has not arrived completely. -/
lemma CompactSize.decoder_of_properPrefix {n : Nat} {p : Bytes} (hpre : p <+: encode n)
    (hproper : p ≠ encode n) : decoder p = .error .unexpectedEnd := by
  have hlen : p.length < (encode n).length := length_lt_of_properPrefix hpre hproper
  cases p with
  | nil => exact decoder_nil
  | cons marker digits =>
    rcases Nat.lt_or_ge 0xFC n with hn | hn
    · obtain ⟨marker', -, henc, -⟩ := encode_eq_cons_toLE hn
      rw [henc, List.cons_prefix_cons] at hpre
      obtain ⟨rfl, -⟩ := hpre
      rw [henc, List.length_cons, List.length_cons, length_toLE] at hlen
      exact decoder_cons_of_length_lt (Nat.lt_of_succ_lt_succ hlen)
    · rw [encode, if_pos hn, List.length_cons, List.length_singleton] at hlen
      omega

/-- A byte string of which not all bytes have arrived. -/
lemma Decoder.sizedBytes_of_properPrefix {maximum : Nat} (hmax : maximum < 2 ^ 32) {bs p : Bytes}
    (hlen : bs.length ≤ maximum) (hpre : p <+: encodeSizedBytes bs)
    (hproper : p ≠ encodeSizedBytes bs) : sizedBytes maximum p = .error .unexpectedEnd := by
  have hlength : CompactSize.encode bs.length <+: encodeSizedBytes bs := List.prefix_append ..
  by_cases hshort : CompactSize.encode bs.length <+: p
  · -- The length is there, so it is the bytes that are missing.
    obtain ⟨q, rfl⟩ := hshort
    have hread := (lengthUpTo_inverts hmax).decode_encode (a := bs.length) trivial hlen q
    have hq : q.length < bs.length := by
      have hlt := length_lt_of_properPrefix hpre hproper
      rw [encodeSizedBytes, List.length_append, List.length_append] at hlt
      exact Nat.lt_of_add_lt_add_left hlt
    exact (bind_apply_of_ok hread).trans (take_of_length_lt hq)
  · have hp : p <+: CompactSize.encode bs.length :=
      (List.prefix_or_prefix_of_prefix hpre hlength).resolve_right hshort
    have hne : p ≠ CompactSize.encode bs.length := fun h => hshort (h ▸ List.prefix_rfl)
    have hread : lengthUpTo maximum p = .error .unexpectedEnd :=
      bind_apply_of_error (CompactSize.decoder_of_properPrefix hp hne)
    exact bind_apply_of_error hread

namespace Message

/-! ## Behind the flags -/

/-- What is read behind the flags of a frame that is not compressed. -/
def unflaggedDecoder : Decoder Message := do
  let command ← Decoder.orRefuse (Command.ofCode? (← Decoder.byte)) .unknownCommand
  let payload ← Decoder.sizedBytes maxPayloadSize
  decodePayload command payload

/-- Flags that mark no compressed payload are skipped. -/
lemma decoder_cons {flags : UInt8} (h : isCompressed flags = false) (tail : Bytes) :
    decoder (flags :: tail) = unflaggedDecoder tail := by
  unfold decoder unflaggedDecoder
  rw [bind_apply_of_ok (byte_cons flags tail)]
  simp only [h]
  rfl

/-- A compressed payload is refused before anything else is read. -/
lemma decoder_cons_of_isCompressed {flags : UInt8} (h : isCompressed flags = true) (tail : Bytes) :
    decoder (flags :: tail) = .error (.malformed .compressedPayload) := by
  unfold decoder
  rw [bind_apply_of_ok (byte_cons flags tail)]
  simp only [h]
  rfl

/-- A payload that is read by its command, with what stands behind it. -/
lemma liftM_decodePayload_apply (c : Command) (payload rest : Bytes) :
    (liftM (decodePayload c payload) : Decoder Message) rest =
      (decodePayload c payload).map fun m => (m, rest) := by
  cases h : decodePayload c payload <;> rfl

/-- The command byte and the payload behind it. -/
lemma unflaggedDecoder_code_cons (c : Command) (tail : Bytes) :
    unflaggedDecoder (c.code :: tail) =
      (do let payload ← Decoder.sizedBytes maxPayloadSize
          liftM (decodePayload c payload) : Decoder Message) tail := by
  have hcode : Command.ofCode? c.code = some c := (Command.ofCode?_eq_some_iff _ _).mpr rfl
  unfold unflaggedDecoder
  rw [bind_apply_of_ok (byte_cons c.code tail), hcode]
  rfl

/-! ## Complete frames -/

/-- The payload of a frame is a byte string behind its length. -/
lemma payload_inverts : (sizedBytes maxPayloadSize).Inverts encodeSizedBytes (fun _ => True)
    (fun bs => bs.length ≤ maxPayloadSize) :=
  sizedBytes_inverts (by decide)

/-- What the decoder makes of a frame is what it makes of the payload. -/
lemma decoder_frame (flags : UInt8) (hflags : isCompressed flags = false) (c : Command)
    {payload : Bytes} (hsize : payload.length ≤ maxPayloadSize) (rest : Bytes) :
    decoder (flags :: c.code :: (encodeSizedBytes payload ++ rest)) =
      (decodePayload c payload).map fun m => (m, rest) := by
  have hread := payload_inverts.decode_encode trivial hsize rest
  rw [decoder_cons hflags, unflaggedDecoder_code_cons, bind_apply_of_ok hread,
    liftM_decodePayload_apply]

/-- A payload above the cap is refused. -/
lemma decoder_frame_eq_error (flags : UInt8) (hflags : isCompressed flags = false) (c : Command)
    {payload : Bytes} (hsize : ¬ payload.length ≤ maxPayloadSize) (rest : Bytes) :
    ∃ e, decoder (flags :: c.code :: (encodeSizedBytes payload ++ rest)) = .error e := by
  obtain ⟨e, he⟩ := payload_inverts.refuses trivial hsize rest
  refine ⟨e, ?_⟩
  rw [decoder_cons hflags, unflaggedDecoder_code_cons, bind_apply_of_error he]

/-- What was written of a message is read by its command. -/
lemma decoder_encode_append {m : Message} (hsize : m.encodePayload.length ≤ maxPayloadSize)
    (rest : Bytes) :
    decoder (m.encode ++ rest) =
      (decodePayload m.command m.encodePayload).map fun w => (w, rest) :=
  decoder_frame 0 (by decide) m.command hsize rest

/-- What was written of a message whose payload is above the cap is refused. -/
lemma decoder_encode_append_eq_error {m : Message}
    (hsize : ¬ m.encodePayload.length ≤ maxPayloadSize) (rest : Bytes) :
    ∃ e, decoder (m.encode ++ rest) = .error e :=
  decoder_frame_eq_error 0 (by decide) m.command hsize rest

/-- Everything that is accepted behind the flags is a command with a payload that is accepted. -/
lemma exists_of_unflaggedDecoder_eq_ok {tail rest : Bytes} {m : Message}
    (h : unflaggedDecoder tail = .ok (m, rest)) :
    ∃ c payload, payload.length ≤ maxPayloadSize ∧
      tail = c.code :: (encodeSizedBytes payload ++ rest) ∧ decodePayload c payload = .ok m := by
  have hcommand := orRefuse_inverts Command.ofCode?_eq_some_iff .unknownCommand
  have hassoc : unflaggedDecoder = (do
      let c ← (do orRefuse (Command.ofCode? (← byte)) .unknownCommand)
      let payload ← sizedBytes maxPayloadSize
      liftM (decodePayload c payload)) := (bind_assoc _ _ _).symm
  rw [hassoc] at h
  obtain ⟨c, mid, hread, htail⟩ := bind_eq_ok_iff.mp h
  obtain ⟨payload, last, hpayload, hmessage⟩ := bind_eq_ok_iff.mp htail
  obtain ⟨-, -, rfl⟩ := hcommand.eq_encode hread
  obtain ⟨-, hsize, rfl⟩ := payload_inverts.eq_encode hpayload
  rw [liftM_decodePayload_apply] at hmessage
  cases hm : decodePayload c payload with
  | error e =>
    rw [hm] at hmessage
    exact absurd hmessage (by simp [Except.map])
  | ok m' =>
    rw [hm] at hmessage
    simp only [Except.map, Except.ok.injEq, Prod.mk.injEq] at hmessage
    obtain ⟨rfl, rfl⟩ := hmessage
    exact ⟨c, payload, hsize, rfl, hm⟩

/-- Everything that is accepted is a frame whose payload is accepted. -/
lemma exists_of_decoder_eq_ok {bs rest : Bytes} {m : Message}
    (h : decoder bs = .ok (m, rest)) :
    ∃ flags c payload, isCompressed flags = false ∧ payload.length ≤ maxPayloadSize ∧
      bs = flags :: c.code :: (encodeSizedBytes payload ++ rest) ∧
      decodePayload c payload = .ok m := by
  cases bs with
  | nil =>
    have hend : decoder [] = .error .unexpectedEnd := rfl
    rw [hend] at h
    exact absurd h (by simp)
  | cons flags tail =>
    cases hflags : isCompressed flags with
    | true =>
      rw [decoder_cons_of_isCompressed hflags] at h
      exact absurd h (by simp)
    | false =>
      rw [decoder_cons hflags] at h
      obtain ⟨c, payload, hsize, rfl, hm⟩ := exists_of_unflaggedDecoder_eq_ok h
      exact ⟨flags, c, payload, hflags, hsize, rfl, hm⟩

/-- The whole-value decoder accepts what the decoder accepts without leaving anything. -/
lemma decode_eq_ok_iff {bs : Bytes} {m : Message} :
    decode bs = .ok m ↔ decoder bs = .ok (m, []) := by
  unfold decode decodeAll
  split <;> simp_all

/-! ## Incomplete frames -/

/-- Of a frame that has not arrived completely the decoder says so. -/
lemma decoder_of_properPrefix {m : Message} (hsize : m.encodePayload.length ≤ maxPayloadSize)
    {p : Bytes} (hpre : p <+: m.encode) (hproper : p ≠ m.encode) :
    decoder p = .error .unexpectedEnd := by
  rcases p with _ | ⟨flags, _ | ⟨code, q⟩⟩
  · rfl
  · rw [encode, List.cons_prefix_cons] at hpre
    obtain ⟨rfl, -⟩ := hpre
    rfl
  · rw [encode, List.cons_prefix_cons, List.cons_prefix_cons] at hpre
    obtain ⟨rfl, rfl, hq⟩ := hpre
    have hne : q ≠ encodeSizedBytes m.encodePayload := fun h => hproper (by rw [h, encode])
    rw [decoder_cons (by decide), unflaggedDecoder_code_cons,
      bind_apply_of_error (sizedBytes_of_properPrefix (by decide) hsize hq hne)]

end Message

end PeerNet
