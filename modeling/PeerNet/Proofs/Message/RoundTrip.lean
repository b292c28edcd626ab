import PeerNet.Proofs.Message.Frame
import PeerNet.Proofs.Message.Size

/-!
# The wire form of a message

Two statements about all messages and all byte strings.  The first follows a message out onto the
wire and back: within its caps it arrives as it was sent, cut short it is noticed to be incomplete,
and beyond its caps it is refused, except that a long request arrives shortened.  The second starts
from any byte string that is accepted and shows that it had no choice: written again, the message
gives back the same bytes, up to the flags nobody looks at and the hashes nobody keeps.

Both rest on the frame lemmas and on `Message.served`; the commands do not come up again.
-/

namespace PeerNet

namespace Message

/-! ## Round trip -/

/-- The payload fits a frame, and every field keeps the cap that its decoder checks. -/
def WithinLimits (m : Message) : Prop := m.encodePayload.length ≤ maxPayloadSize ∧ m.Fits

/-- A request for more hashes than are served, in a frame that fits. -/
def IsLongRequest (m : Message) : Prop :=
  m.encodePayload.length ≤ maxPayloadSize ∧
    ∃ l, m = getData l ∧ HashList.maxCount < l.hashes.length

/-- A request whose frame fits has a count that can be written. -/
lemma accepted_getData {l : HashList} (h : (getData l).encodePayload.length ≤ maxPayloadSize) :
    (getData l).Accepted := by
  have hlen : (getData l).encodePayload.length =
      1 + (CompactSize.encodedSize l.hashes.length + 32 * l.hashes.length) := by
    rw [encodePayload, HashList.encode, List.length_cons, encodeSizedList, List.length_append,
      CompactSize.length_encode, HashList.length_flatMap_toList, Nat.add_comm]
  have hmax : maxPayloadSize < 2 ^ 64 := by decide
  change l.hashes.length < 2 ^ 64
  omega

/-- An accepted message whose frame fits arrives as what is served of it. -/
lemma decoder_encode {m : Message} (hnormal : m.Normal) (hacc : m.Accepted)
    (hsize : m.encodePayload.length ≤ maxPayloadSize) (rest : Bytes) :
    decoder (m.encode ++ rest) = .ok (m.served, rest) := by
  rw [decoder_encode_append hsize, decodePayload_encodePayload hnormal hacc]
  rfl

/-- A message beyond its caps is refused, unless it is a long request. -/
lemma decoder_encode_eq_error {m : Message} (hnormal : m.Normal) (hlimits : ¬ m.WithinLimits)
    (hlong : ¬ m.IsLongRequest) (rest : Bytes) : ∃ e, decoder (m.encode ++ rest) = .error e := by
  by_cases hsize : m.encodePayload.length ≤ maxPayloadSize
  · have hfits : ¬ m.Fits := fun h => hlimits ⟨hsize, h⟩
    -- A request whose frame fits is either within its limits or a long one.
    have hrequest : m.command ≠ .getData := by
      intro hcommand
      cases m <;> simp only [command, reduceCtorEq] at hcommand
      case getData l => exact hlong ⟨hsize, l, rfl, Nat.lt_of_not_le hfits⟩
    obtain ⟨e, he⟩ := decodePayload_eq_error hnormal hfits hrequest
    refine ⟨e, ?_⟩
    rw [decoder_encode_append hsize, he]
    rfl
  · exact decoder_encode_append_eq_error hsize rest

/-- A message within its limits is read back from the front of any byte string, in as many bytes as
its encoder reports, and not from fewer; beyond its limits it is refused, except for a long request,
which is read with its first hashes only. -/
theorem decoder_encode_roundTrip (m : Message) (hnormal : m.Normal) :
    (m.WithinLimits →
      (∀ rest, decoder (m.encode ++ rest) = .ok (m, rest)) ∧
      m.encodedSize = m.encode.length ∧ m.payloadSize = m.encodePayload.length ∧
      ∀ p, p <+: m.encode → p ≠ m.encode → decoder p = .error .unexpectedEnd) ∧
    (∀ l, m = getData l → HashList.maxCount < l.hashes.length →
      m.encodePayload.length ≤ maxPayloadSize → ∀ rest,
        decoder (m.encode ++ rest) =
          .ok (getData ⟨l.kind, l.hashes.take HashList.maxCount⟩, rest)) ∧
    (¬ m.WithinLimits → ¬ m.IsLongRequest →
      ∀ rest, ∃ e, decoder (m.encode ++ rest) = .error e) := by
  refine ⟨?_, ?_, decoder_encode_eq_error hnormal⟩
  · rintro ⟨hsize, hfits⟩
    refine ⟨fun rest => ?_, m.length_encode.symm, m.length_encodePayload.symm,
      fun p => decoder_of_properPrefix hsize⟩
    rw [decoder_encode hnormal (accepted_of_fits hfits) hsize, served_of_fits hfits]
  · rintro l rfl - hsize rest
    exact decoder_encode hnormal (accepted_getData hsize) hsize rest

/-- A ping arrives as it was sent, of 501 hashes asked for the first 500 arrive, and 521 bytes for a
filter are refused. -/
theorem decoder_encode_ping_getData_filterAdd :
    decoder ((ping ⟨7, 8, 9⟩).encode ++ [0xAA]) = .ok (ping ⟨7, 8, 9⟩, [0xAA]) ∧
    decoder ((getData ⟨.block, List.replicate 501 (FixedBytes.zero 32)⟩).encode) =
      .ok (getData ⟨.block, List.replicate 500 (FixedBytes.zero 32)⟩, []) ∧
    ∃ e, decoder ((filterAdd ⟨List.replicate 521 0⟩).encode) = .error e := by
  have hping := decoder_encode_roundTrip (ping ⟨7, 8, 9⟩) trivial
  have hrequest :=
    decoder_encode_roundTrip (getData ⟨.block, List.replicate 501 (FixedBytes.zero 32)⟩) trivial
  have helement := decoder_encode_roundTrip (filterAdd ⟨List.replicate 521 0⟩) trivial
  refine ⟨(hping.1 ⟨by decide, trivial⟩).1 _, ?_, ?_⟩
  · have hsize : (getData ⟨.block, List.replicate 501 (FixedBytes.zero 32)⟩).encodePayload.length ≤
        maxPayloadSize := by
      rw [length_encodePayload, payloadSize, ← HashList.length_encode, HashList.encode,
        List.length_cons, encodeSizedList, List.length_append, HashList.length_flatMap_toList,
        CompactSize.length_encode, List.length_replicate]
      decide
    have hlong : HashList.maxCount < (List.replicate 501 (FixedBytes.zero 32)).length := by
      rw [List.length_replicate]
      decide
    have hread := hrequest.2.1 _ rfl hlong hsize []
    rw [List.append_nil, List.take_replicate] at hread
    exact hread
  · have hread := helement.2.2 (fun h => ?_) (fun h => ?_) []
    · rw [List.append_nil] at hread
      exact hread
    · have hfits : (List.replicate 521 (0 : UInt8)).length ≤ FilterAdd.maxDataSize := h.2
      rw [List.length_replicate] at hfits
      exact absurd hfits (by decide)
    · obtain ⟨-, l, hl, -⟩ := h
      cases hl

/-! ## Canonical form -/

/-- An accepted byte string is the frame of an accepted message, up to its flags. -/
lemma exists_of_decode {b : Bytes} {m : Message} (h : decode b = .ok m) :
    ∃ (flags : UInt8) (w : Message), isCompressed flags = false ∧ w.Normal ∧ w.Accepted ∧
      w.encodePayload.length ≤ maxPayloadSize ∧ b = flags :: w.encode.tail ∧ m = w.served := by
  obtain ⟨flags, c, payload, hflags, hsize, hb, hpayload⟩ :=
    exists_of_decoder_eq_ok (decode_eq_ok_iff.mp h)
  obtain ⟨w, rfl, hnormal, hacc, rfl, hm⟩ := exists_of_decodePayload hpayload
  rw [List.append_nil] at hb
  exact ⟨flags, w, hflags, hnormal, hacc, hsize, hb, hm⟩

/-- What is served tells the message, unless it is a request that fills the cap. -/
lemma eq_or_of_served_eq {w w' : Message} (h : w.served = w'.served) :
    w = w' ∨ ∃ l l', w = getData l ∧ w' = getData l' ∧ l.kind = l'.kind ∧
      HashList.maxCount ≤ l.hashes.length ∧ HashList.maxCount ≤ l'.hashes.length ∧
      l.hashes.take HashList.maxCount = l'.hashes.take HashList.maxCount := by
  have hcommand : w.command = w'.command := by
    rw [← command_served w, h, command_served]
  cases w
  case getData l =>
    cases w' <;> simp only [command, reduceCtorEq] at hcommand
    case getData l' =>
      obtain ⟨kind, hashes⟩ := l
      obtain ⟨kind', hashes'⟩ := l'
      simp only [served, getData.injEq, HashList.mk.injEq] at h
      obtain ⟨rfl, htake⟩ := h
      have hlen := congrArg List.length htake
      rw [List.length_take, List.length_take] at hlen
      rcases Nat.lt_or_ge hashes.length HashList.maxCount with hshort | hfull
      · have hshort' : hashes'.length < HashList.maxCount := by omega
        -- Below the cap nothing was cut off on either side.
        rw [List.take_of_length_le hshort.le, List.take_of_length_le hshort'.le] at htake
        exact .inl (by rw [htake])
      · have hfull' : HashList.maxCount ≤ hashes'.length := by omega
        exact .inr ⟨_, _, rfl, rfl, rfl, hfull, hfull', htake⟩
  all_goals
    refine .inl ?_
    cases w' <;> simp only [command, reduceCtorEq] at hcommand
    exact h

/-- Two requests written alike are served alike, if one of them is accepted. -/
lemma served_eq_of_encode_eq {w : Message} {l : HashList} (hnormal : w.Normal) (hacc : w.Accepted)
    (hsize : w.encodePayload.length ≤ maxPayloadSize) (h : w.encode = (getData l).encode) :
    w.served = (getData l).served := by
  have hread := decoder_encode hnormal hacc hsize []
  rw [h] at hread
  by_cases hfits : (getData l).encodePayload.length ≤ maxPayloadSize
  · have hread' := decoder_encode (m := getData l) trivial (accepted_getData hfits) hfits []
    rw [hread] at hread'
    simpa using hread'
  · obtain ⟨e, he⟩ := decoder_encode_append_eq_error hfits []
    rw [hread] at he
    exact absurd he (by simp)

/-- What is accepted as a whole is the written form of the message, with any flags; only of a long
request fewer hashes are written again.  So two byte strings for one message differ in the ignored
flags at most, unless both are requests that fill the cap and begin alike. -/
theorem encode_of_decode_eq_ok {b : Bytes} {m : Message} (h : decode b = .ok m) :
    ((∀ l, b.set 0 0 = (getData l).encode → l.hashes.length ≤ HashList.maxCount) →
      m.encode = b.set 0 0) ∧
    (∀ l, b.set 0 0 = (getData l).encode → HashList.maxCount < l.hashes.length →
      m.encode = (getData ⟨l.kind, l.hashes.take HashList.maxCount⟩).encode) ∧
    (∀ b', decode b' = .ok m →
      (∃ flags flags' tail, b = flags :: tail ∧ b' = flags' :: tail ∧
        flags &&& 0x01 = flags' &&& 0x01) ∨
      ∃ l l', b.set 0 0 = (getData l).encode ∧ b'.set 0 0 = (getData l').encode ∧
        l.kind = l'.kind ∧ HashList.maxCount ≤ l.hashes.length ∧
        HashList.maxCount ≤ l'.hashes.length ∧
        l.hashes.take HashList.maxCount = l'.hashes.take HashList.maxCount) := by
  obtain ⟨flags, w, hflags, hnormal, hacc, hsize, rfl, rfl⟩ := exists_of_decode h
  refine ⟨fun hshort => ?_, fun l hl _ => ?_, fun b' h' => ?_⟩
  · have hserved : w.served = w := by
      cases w with
      | getData l => exact served_getData_of_le (hshort l rfl)
      | _ => rfl
    rw [hserved]
    rfl
  · rw [served_eq_of_encode_eq hnormal hacc hsize hl]
    rfl
  · obtain ⟨flags', w', hflags', -, -, -, rfl, hserved⟩ := exists_of_decode h'
    rcases eq_or_of_served_eq hserved with rfl | ⟨l, l', rfl, rfl, hkind, hlong, hlong', htake⟩
    · refine .inl ⟨flags, flags', w.encode.tail, rfl, rfl, ?_⟩
      have hzero : flags &&& 0x01 = 0 := by simpa [isCompressed] using hflags
      have hzero' : flags' &&& 0x01 = 0 := by simpa [isCompressed] using hflags'
      rw [hzero, hzero']
    · exact .inr ⟨l, l', rfl, rfl, hkind, hlong, hlong', htake⟩

/-- A ping with ignored flags is written again without them. -/
theorem encode_of_decode_ping_with_flags :
    (ping ⟨7, 8, 9⟩).encode = (0x80 :: (ping ⟨7, 8, 9⟩).encode.tail).set 0 0 :=
  (encode_of_decode_eq_ok (b := 0x80 :: (ping ⟨7, 8, 9⟩).encode.tail) (by rfl)).1
    fun l hl => absurd (congrArg (·[1]?) hl) (by simp [encode, command, Command.code])

end Message

end PeerNet
