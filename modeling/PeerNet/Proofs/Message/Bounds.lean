import PeerNet.Proofs.Message.RoundTrip

/-!
# How large a message can be

The caps of a payload bound its size, part by part.  For all but the messages that carry a body of
their own the caps keep the payload far below what a frame holds, so that such a message arrives as
soon as it keeps its caps (`Message.withinLimits_of_fits`).
-/

namespace PeerNet

/-! ## Counts and lists -/

/-- A small size takes one byte. -/
lemma CompactSize.encodedSize_of_le {n : Nat} (h : n ≤ 0xFC) : encodedSize n = 1 := if_pos h

lemma CompactSize.encodedSize_pos (n : Nat) : 1 ≤ encodedSize n := by
  rw [encodedSize]
  split_ifs <;> decide

/-- No size takes more than nine bytes. -/
lemma CompactSize.encodedSize_le (n : Nat) : encodedSize n ≤ 9 := by
  rw [encodedSize]
  split_ifs <;> decide

section Lists

variable {α : Type} {enc : α → Bytes} {xs : List α} {n : Nat}

/-- Items of bounded size make a list of bounded size. -/
lemma length_flatMap_le (h : ∀ a ∈ xs, (enc a).length ≤ n) :
    (xs.flatMap enc).length ≤ xs.length * n := by
  rw [List.length_flatMap]
  refine (List.sum_le_card_nsmul _ n (List.forall_mem_map.mpr h)).trans_eq ?_
  rw [List.length_map, smul_eq_mul]

/-- Items of at least `n` bytes each take at least `n` times their number. -/
lemma le_length_flatMap (h : ∀ a ∈ xs, n ≤ (enc a).length) :
    xs.length * n ≤ (xs.flatMap enc).length := by
  rw [List.length_flatMap]
  refine Eq.trans_le ?_ (List.card_nsmul_le_sum _ n (List.forall_mem_map.mpr h))
  rw [List.length_map, smul_eq_mul]

/-- A list takes its count and its items. -/
lemma length_encodeSizedList_eq (enc : α → Bytes) (xs : List α) :
    (encodeSizedList enc xs).length =
      CompactSize.encodedSize xs.length + (xs.flatMap enc).length := by
  rw [encodeSizedList, List.length_append, CompactSize.length_encode]

/-- A list takes at most nine bytes beside its items, and these no more than their bound each. -/
lemma length_encodeSizedList_le (h : ∀ a ∈ xs, (enc a).length ≤ n) :
    (encodeSizedList enc xs).length ≤ 9 + xs.length * n := by
  rw [length_encodeSizedList_eq]
  exact Nat.add_le_add (CompactSize.encodedSize_le _) (length_flatMap_le h)

end Lists

/-- Bytes are written in at most nine more than they are. -/
lemma length_encodeSizedBytes_le (bs : Bytes) : (encodeSizedBytes bs).length ≤ 9 + bs.length := by
  rw [encodeSizedBytes, List.length_append, CompactSize.length_encode]
  exact Nat.add_le_add_right (CompactSize.encodedSize_le _) _

/-- A text is written in at most nine bytes more than it has. -/
lemma length_encodeSizedText_le (text : String) :
    (encodeSizedText text).length ≤ 9 + text.utf8ByteSize :=
  length_encodeSizedBytes_le (utf8Bytes text)

/-! ## Parts of messages -/

/-- No capability takes more than five bytes. -/
lemma Capability.length_encode_le (c : Capability) : c.encode.length ≤ 5 := by
  cases c <;> simp [encode]

/-- The capabilities of a peer take at most 161 bytes, as there are no more than 32. -/
lemma Capability.length_encodeList_le {cs : List Capability} (h : cs.length ≤ maxCount) :
    (encodeList cs).length ≤ 161 := by
  have hcap : cs.length ≤ 32 := h
  have hitems : (cs.flatMap encode).length ≤ cs.length * 5 :=
    length_flatMap_le fun c _ => c.length_encode_le
  rw [encodeList, length_encodeSizedList_eq, CompactSize.encodedSize_of_le (by omega)]
  omega

namespace AddressRecord

/-- A record takes 20 bytes beside its capabilities. -/
lemma length_encode_eq (r : AddressRecord) :
    r.encode.length = 20 + (Capability.encodeList r.capabilities).length := by
  simp only [encode, List.length_append, length_toLE, FixedBytes.length_toList]

/-- A record takes a time, an address and the count of its capabilities at least. -/
lemma le_length_encode (r : AddressRecord) : 21 ≤ r.encode.length := by
  have hcount := CompactSize.encodedSize_pos r.capabilities.length
  rw [length_encode_eq, Capability.encodeList, length_encodeSizedList_eq]
  omega

/-- No record within its cap takes more than 181 bytes. -/
lemma length_encode_le {r : AddressRecord} (h : r.Fits) : r.encode.length ≤ 181 := by
  have hcapabilities := Capability.length_encodeList_le h
  rw [length_encode_eq]
  omega

end AddressRecord

/-- No header within its cap takes more than 1142 bytes. -/
lemma Header.length_encode_le {h : Header} (hfits : h.Fits) : h.encode.length ≤ 1142 := by
  have hwitness : h.witness.length ≤ 1024 := hfits
  have hsized := length_encodeSizedBytes_le h.witness
  simp only [encode, encodeUnsigned, List.length_append, List.length_cons, length_toLE,
    FixedBytes.length_toList]
  omega

/-- No list of hashes within its cap takes more than 16010 bytes. -/
lemma HashList.length_encode_le {l : HashList} (h : l.Fits) : l.encode.length ≤ 16010 := by
  have hcount : l.hashes.length ≤ 500 := h
  have hitems : (encodeSizedList FixedBytes.toList l.hashes).length ≤ 9 + l.hashes.length * 32 :=
    length_encodeSizedList_le fun hash _ => hash.length_toList.le
  rw [encode, List.length_cons]
  omega

/-- No merkle block within its caps takes more than 2106495 bytes. -/
lemma MerkleBlock.length_encode_le {m : MerkleBlock} (h : m.Fits) :
    m.encode.length ≤ 2106495 := by
  obtain ⟨hheader, -, hhashes, hflags⟩ := h
  have hhashes : m.hashes.length ≤ 65535 := hhashes
  have hflags : m.flags.length ≤ 8192 := hflags
  have hheader := Header.length_encode_le hheader
  have hcount := CompactSize.encodedSize_le m.txCount.toNat
  have hitems : (encodeSizedList FixedBytes.toList m.hashes).length ≤ 9 + m.hashes.length * 32 :=
    length_encodeSizedList_le fun hash _ => hash.length_toList.le
  have hbytes := length_encodeSizedBytes_le m.flags
  simp only [encode, List.length_append, CompactSize.length_encode]
  omega

/-! ## Messages -/

namespace Message

/-- Whether a message carries no body of its own, of which nothing but its size is known. -/
def isBounded : Message → Bool
  | transaction _ | block _ | consensus _ | reject _ | alert _ => false
  | _ => true

/-- The caps of a message keep it within a frame, unless it carries a body of its own. -/
lemma withinLimits_of_fits {m : Message} (hbounded : m.isBounded = true) (hfits : m.Fits) :
    m.WithinLimits := by
  refine ⟨?_, hfits⟩
  have hmax : maxPayloadSize = 33554432 := rfl
  rw [hmax]
  cases m with
  | version v =>
    obtain ⟨hagent, hcapabilities⟩ := hfits
    have hagent : v.userAgent.utf8ByteSize ≤ 1024 := hagent
    have htext := length_encodeSizedText_le v.userAgent
    have hlist := Capability.length_encodeList_le hcapabilities
    simp only [encodePayload, Version.encode, List.length_append, length_toLE]
    omega
  | disconnect d =>
    obtain ⟨hmessage, hdata⟩ := hfits
    have hmessage : d.message.utf8ByteSize ≤ 255 := hmessage
    have hdata : d.data.length ≤ 1024 := hdata
    have htext := length_encodeSizedText_le d.message
    have hbytes := length_encodeSizedBytes_le d.data
    simp only [encodePayload, Disconnect.encode, List.length_append, List.length_cons]
    omega
  | addr records =>
    obtain ⟨⟨hcount, hrecords⟩, -⟩ := hfits
    have hcount : records.length ≤ 200 := hcount
    have hlist : (AddressRecord.encodeList records).length ≤ 9 + records.length * 181 :=
      length_encodeSizedList_le fun r hr => AddressRecord.length_encode_le (hrecords r hr)
    change (AddressRecord.encodeList records).length ≤ _
    omega
  | headers hs =>
    obtain ⟨hcount, hheaders⟩ := hfits
    have hcount : hs.length ≤ 2000 := hcount
    have hlist : (Header.encodeList hs).length ≤ 9 + hs.length * 1142 :=
      length_encodeSizedList_le fun h hh => Header.length_encode_le (hheaders h hh)
    change (Header.encodeList hs).length ≤ _
    omega
  | inv l | getData l | notFound l => exact (HashList.length_encode_le hfits).trans (by decide)
  | filterLoad f =>
    have hfilter : f.filter.length ≤ 36000 := hfits.1
    have hbytes := length_encodeSizedBytes_le f.filter
    simp only [encodePayload, FilterLoad.encode, List.length_append, List.length_cons, length_toLE]
    omega
  | filterAdd f =>
    have hdata : f.data.length ≤ 520 := hfits
    have hbytes := length_encodeSizedBytes_le f.data
    change (encodeSizedBytes f.data).length ≤ _
    omega
  | merkleBlock m => exact (MerkleBlock.length_encode_le hfits).trans (by decide)
  | ping p | pong p | getHeaders walk | getBlocks walk | getBlockData range =>
    rw [length_encodePayload]
    exact Nat.le_of_ble_eq_true rfl
  | verack | getAddr | mempool | filterClear => exact Nat.zero_le _
  | transaction | block | consensus | reject | alert => exact Bool.noConfusion hbounded

/-- A message within its limits is read back, if its addresses are in normal form. -/
lemma decode_encode {m : Message} (hnormal : m.Normal) (hlimits : m.WithinLimits) :
    decode m.encode = .ok m := by
  have hread := decoder_encode hnormal (accepted_of_fits hlimits.2) hlimits.1 []
  rw [List.append_nil, served_of_fits hlimits.2] at hread
  exact decode_eq_ok_iff.mpr hread

end Message

end PeerNet
