import PeerNet.Proofs.Message.Limits

/-!
# Address lists, up to the spelling of addresses

The wire has one spelling for an address, that of IPv6, and an address read from it is brought to
normal form.  So writing and reading back a list of records is not quite the identity: it brings the
address of every record to normal form (`AddressRecord.normalized`).  Nothing else is lost, and
nothing is gained, since the bytes of a list that is read are those that would be written of it.

Lists travel in two places.  In the data of a notice a list may be empty, in an answer to a request
for addresses it may not; apart from that they are read alike.
-/

namespace PeerNet

open Decoder

/-- Two addresses are written alike exactly if they are spellings of one address. -/
lemma Ip.wireOctets_eq_wireOctets_iff {a b : Ip} :
    a.wireOctets = b.wireOctets ↔ a.normal = b.normal := by
  constructor
  · intro h
    rw [← normal_v6_wireOctets a, h, normal_v6_wireOctets]
  · intro h
    rw [← wireOctets_normal a, h, wireOctets_normal]

namespace AddressRecord

/-! ## Normal form -/

/-- The record with its address in normal form. -/
def normalized (r : AddressRecord) : AddressRecord := { r with ip := r.ip.normal }

/-- A normalized record is in normal form. -/
lemma normal_normalized (r : AddressRecord) : r.normalized.Normal := Ip.normal_normal r.ip

/-- A record in normal form is left as it is. -/
lemma Normal.normalized_eq {r : AddressRecord} (h : r.Normal) : r.normalized = r := by
  rw [normalized, h]

/-- The wire does not tell a record from the one with its address in normal form. -/
lemma encode_normalized (r : AddressRecord) : r.normalized.encode = r.encode := by
  rw [encode, encode, normalized, Ip.wireOctets_normal]

variable {rs : List AddressRecord} {bs : Bytes}

/-- Normalizing the records of a list does not show in its written form. -/
lemma encodeList_map_normalized (rs : List AddressRecord) :
    encodeList (rs.map normalized) = encodeList rs := by
  have hitems : (fun r : AddressRecord => r.normalized.encode) = encode := funext encode_normalized
  rw [encodeList, encodeList, encodeSizedList, encodeSizedList, List.length_map, List.flatMap_map,
    hitems]

/-! ## The two places of a list -/

/-- The bytes of a list, and nothing behind them. -/
lemma decodeList_eq_ok_iff : decodeList bs = .ok rs ↔
    (∀ r ∈ rs, r.Normal) ∧ (rs.length ≤ maxCount ∧ ∀ r ∈ rs, r.Fits) ∧ bs = encodeList rs := by
  have hread : decodeList bs = .ok rs ↔ decodeAll listDecoder bs = .ok rs := by
    unfold decodeList decodeAll
    rcases listDecoder bs with _ | ⟨_, _ | _⟩ <;> simp
  rw [hread, listDecoder_inverts.decodeAll_eq_ok_iff]

/-- A list is read back in normal form, exactly if it keeps the caps. -/
lemma decodeList_encodeList_eq_ok_iff : decodeList (encodeList rs) = .ok (rs.map normalized) ↔
    rs.length ≤ maxCount ∧ ∀ r ∈ rs, r.Fits := by
  have hnormal : ∀ r ∈ rs.map normalized, r.Normal :=
    List.forall_mem_map.mpr fun r _ => r.normal_normalized
  have hfits : (∀ r ∈ rs.map normalized, r.Fits) ↔ ∀ r ∈ rs, r.Fits := List.forall_mem_map
  rw [decodeList_eq_ok_iff, encodeList_map_normalized, List.length_map, hfits]
  constructor
  · rintro ⟨-, hcaps, -⟩
    exact hcaps
  · intro hcaps
    exact ⟨hnormal, hcaps, rfl⟩

/-- An answer to a request for addresses is a list that is not empty. -/
lemma decodePayload_addr_eq_ok_iff {m : Message} : Message.decodePayload .addr bs = .ok m ↔
    ∃ rs, m = .addr rs ∧ rs ≠ [] ∧ decodeList bs = .ok rs := by
  constructor
  · intro h
    obtain ⟨rs, rfl, hnormal, ⟨hfits, hsome⟩, rfl⟩ :=
      Message.exists_of_map_decodeAll nonemptyListDecoder_inverts h
    exact ⟨rs, rfl, hsome, decodeList_eq_ok_iff.mpr ⟨hnormal, hfits, rfl⟩⟩
  · rintro ⟨rs, rfl, hsome, hread⟩
    obtain ⟨hnormal, hfits, rfl⟩ := decodeList_eq_ok_iff.mp hread
    exact Message.map_decodeAll_encode nonemptyListDecoder_inverts .addr hnormal ⟨hfits, hsome⟩

/-- A list of at most `maxCount` records with at most `Capability.maxCount` capabilities each is
read back as it was written, except that every address is brought to normal form, and a longer one
is not.  Whatever list is read is in normal form and would be written as it came.  An answer to a
request for addresses is read from the same bytes as the data of a notice, with the same records, as
long as there are any.

Bringing an address to normal form once is enough, and two addresses are written as the same sixteen
bytes exactly if they have one normal form. -/
theorem lists_exact_up_to_spelling :
    (∀ rs, decodeList (encodeList rs) = .ok (rs.map normalized) ↔
      rs.length ≤ maxCount ∧ ∀ r ∈ rs, r.capabilities.length ≤ Capability.maxCount) ∧
    (∀ bs rs, decodeList bs = .ok rs → encodeList rs = bs ∧ rs.map normalized = rs) ∧
    (∀ bs m, Message.decodePayload .addr bs = .ok m ↔
      ∃ rs, m = .addr rs ∧ rs ≠ [] ∧ decodeList bs = .ok rs) ∧
    (∀ ip : Ip, ip.normal.normal = ip.normal) ∧
    ∀ a b : Ip, a.wireOctets = b.wireOctets ↔ a.normal = b.normal := by
  refine ⟨fun rs => decodeList_encodeList_eq_ok_iff, ?_, fun bs m => decodePayload_addr_eq_ok_iff,
    Ip.normal_normal, fun a b => Ip.wireOctets_eq_wireOctets_iff⟩
  intro bs rs hread
  obtain ⟨hnormal, -, rfl⟩ := decodeList_eq_ok_iff.mp hread
  have hsame : rs.map normalized = rs.map id :=
    List.map_congr_left fun r hr => (hnormal r hr).normalized_eq
  exact ⟨rfl, hsame.trans rs.map_id⟩

/-- A host in both spellings of its address: the records are written with the same sixteen bytes,
and both come back as IPv4. -/
theorem lists_exact_up_to_spelling_of_two_spellings :
    let plain : Ip := .v4 ⟨[10, 0, 0, 1], rfl⟩
    let mapped : Ip := .v6 ⟨[0, 0, 0, 0, 0, 0, 0, 0, 0, 0, 0xFF, 0xFF, 10, 0, 0, 1], rfl⟩
    let record (ip : Ip) : AddressRecord := ⟨5, ip, [.tcpServer 20333]⟩
    let bs := encodeList [record mapped, record plain]
    plain ≠ mapped ∧ plain.wireOctets = mapped.wireOctets ∧
    decodeList bs = .ok [record plain, record plain] ∧
    encodeList [record plain, record plain] = bs ∧
    Message.decodePayload .addr bs = .ok (.addr [record plain, record plain]) ∧
    ¬ ∃ m, Message.decodePayload .addr (encodeList []) = .ok m := by
  intro plain mapped record bs
  obtain ⟨hwritten, hread, hanswer, -, hspelling⟩ := lists_exact_up_to_spelling
  have hlist : decodeList bs = .ok [record plain, record plain] :=
    (hwritten [record mapped, record plain]).mpr (by decide)
  have hempty : decodeList (encodeList []) = .ok [] := (hwritten []).mpr (by decide)
  refine ⟨nofun, (hspelling plain mapped).mpr (by decide), hlist, (hread bs _ hlist).1,
    (hanswer bs _).mpr ⟨_, rfl, nofun, hlist⟩, ?_⟩
  rintro ⟨m, hm⟩
  obtain ⟨rs, -, hsome, hnone⟩ := (hanswer _ m).mp hm
  rw [hempty] at hnone
  exact hsome (Except.ok.inj hnone).symm

end AddressRecord

end PeerNet
