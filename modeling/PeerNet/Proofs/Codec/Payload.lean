import PeerNet.Message.Size
import PeerNet.Proofs.Codec.Sized

/-!
# The payloads

Every payload decoder inverts its encoder.  `Fits` names, for each payload, the caps that its
decoder checks; an address record has to have its address in normal form besides, because the wire
does not tell the two spellings of an IPv4 address apart.  A request for hashes is the exception:
its decoder reads any number of them and keeps the first five hundred
(`HashList.decodeRequest_eq_ok_iff`).

Each law is put together field by field, in the order in which the fields are read.
-/

namespace PeerNet

open Decoder

/-! ## Addresses -/

namespace Ip

/-- Sixteen octets are the mapped form of an IPv4 address exactly if the wire writes it so. -/
lemma unmap?_eq_some_iff {octets : FixedBytes 16} {plain : FixedBytes 4} :
    unmap? octets = some plain ↔ octets = (v4 plain).wireOctets := by
  obtain ⟨bs, hbs⟩ := octets
  obtain ⟨ps, hps⟩ := plain
  simp only [unmap?, wireOctets, FixedBytes.mk.injEq, Option.ite_none_right_eq_some,
    Option.some.injEq]
  constructor
  · rintro ⟨hlead, rfl⟩
    rw [← hlead, List.take_append_drop]
  · rintro rfl
    exact ⟨rfl, rfl⟩

/-- An address and its wire form have the same normal form. -/
lemma normal_v6_wireOctets (ip : Ip) : (v6 ip.wireOctets).normal = ip.normal := by
  cases ip with
  | v4 plain => simp [normal, unmap?_eq_some_iff.mpr rfl]
  | v6 octets => rfl

/-- An address and its normal form are written alike. -/
lemma wireOctets_normal (ip : Ip) : ip.normal.wireOctets = ip.wireOctets := by
  cases ip with
  | v4 plain => rfl
  | v6 octets =>
    cases h : unmap? octets with
    | none => simp [normal, h]
    | some plain =>
      have hnormal : (v6 octets).normal = v4 plain := by simp [normal, h]
      rw [hnormal, ← unmap?_eq_some_iff.mp h]
      rfl

/-- An address in normal form is the one read from its wire form. -/
lemma wireOctets_eq_iff {ip : Ip} (h : ip.normal = ip) (octets : FixedBytes 16) :
    ip.wireOctets = octets ↔ ip = (v6 octets).normal := by
  constructor
  · rintro rfl
    rw [normal_v6_wireOctets, h]
  · rintro rfl
    rw [wireOctets_normal]
    rfl

/-- Bringing an address to normal form once is enough. -/
lemma normal_normal (ip : Ip) : ip.normal.normal = ip.normal := by
  rw [← normal_v6_wireOctets ip.normal, wireOctets_normal, normal_v6_wireOctets]

end Ip

/-! ## Capabilities -/

namespace Capability

/-- A capability is read back from its type byte and what follows it. -/
lemma decoder_inverts : decoder.Inverts encode (fun _ => True) (fun _ => True) := by
  have h : decoder.Inverts (fun c : Capability => [c.encode.headD 0] ++ c.encode.tail)
      (fun _ => True) (fun _ => True ∧ True) := by
    refine byte_inverts.field (fun c : Capability => c.encode.headD 0) (fun _ _ => trivial)
      fun kind _ _ => ?_
    split_ifs with h1 h2 h3
    · refine (u16_inverts.image tcpServer fun _ => rfl).congr (fun _ => rfl) (fun c => ?_)
        (fun _ _ => Iff.rfl)
      subst h1
      cases c <;> simp [encode]
    · refine (u16_inverts.image wsServer fun _ => rfl).congr (fun _ => rfl) (fun c => ?_)
        (fun _ _ => Iff.rfl)
      subst h2
      cases c <;> simp [encode]
    · refine (u32_inverts.image fullNode fun _ => rfl).congr (fun _ => rfl) (fun c => ?_)
        (fun _ _ => Iff.rfl)
      subst h3
      cases c <;> simp [encode]
    · -- No capability has any other type byte.
      refine Inverts.refuse _ fun c hc => ?_
      obtain ⟨-, rfl⟩ := hc
      cases c <;> simp [encode] at h1 h2 h3
  exact h.congr (fun c => by cases c <;> rfl) (fun _ => Iff.rfl) (fun _ _ => by rw [and_true])

/-- A list of capabilities is read back just if a peer may announce so many. -/
lemma listDecoder_inverts :
    listDecoder.Inverts encodeList (fun _ => True) (fun cs => cs.length ≤ maxCount) :=
  (sizedList_inverts decoder_inverts (by decide)).congr (fun _ => rfl) (fun _ => by simp)
    (fun _ _ => by simp)

end Capability

/-! ## Versions -/

namespace Version

/-- The caps that are checked when a version is read. -/
def Fits (v : Version) : Prop :=
  v.userAgent.utf8ByteSize ≤ maxUserAgentSize ∧ v.capabilities.length ≤ Capability.maxCount

/-- A version is read back just if it keeps its caps. -/
lemma decoder_inverts : decoder.Inverts encode (fun _ => True) Fits := by
  refine Inverts.congr (u32_inverts.field magic (fun _ _ => trivial) fun a _ _ =>
    u32_inverts.field version (fun _ _ => trivial) fun b _ _ =>
    u32_inverts.field timestamp (fun _ _ => trivial) fun c _ _ =>
    u32_inverts.field nonce (fun _ _ => trivial) fun d _ _ =>
    (sizedText_inverts (by decide)).field userAgent (fun _ _ => trivial) fun e _ _ =>
    Capability.listDecoder_inverts.field capabilities (fun _ _ => trivial) fun f _ _ =>
    Inverts.pure fun v => ?_) (fun v => ?_) (fun _ => Iff.rfl) (fun v _ => ?_)
  · cases v
    simp only [true_and, mk.injEq, and_assoc]
  · simp [encode]
  · simp [Fits]

end Version

/-! ## Address records -/

namespace AddressRecord

/-- The address has the spelling that comparison uses. -/
def Normal (r : AddressRecord) : Prop := r.ip.normal = r.ip

/-- The cap that is checked when a record is read. -/
def Fits (r : AddressRecord) : Prop := r.capabilities.length ≤ Capability.maxCount

/-- A record in normal form is read back. -/
lemma decoder_inverts : decoder.Inverts encode Normal Fits := by
  refine Inverts.congr (u32_inverts.field timestamp (fun _ _ => trivial) fun a _ _ =>
    (fixed_inverts 16).field (fun r : AddressRecord => r.ip.wireOctets) (fun _ _ => trivial)
      fun octets _ _ =>
    Capability.listDecoder_inverts.field capabilities (fun _ _ => trivial) fun cs _ _ =>
    Inverts.pure fun r => ?_) (fun r => ?_) (fun _ => Iff.rfl) (fun r _ => ?_)
  · obtain ⟨timestamp, ip, capabilities⟩ := r
    simp only [Normal, ofIp, mk.injEq]
    constructor
    · rintro ⟨⟨⟨hnormal, rfl⟩, hoctets⟩, rfl⟩
      exact ⟨rfl, (Ip.wireOctets_eq_iff hnormal octets).mp hoctets, rfl⟩
    · rintro ⟨rfl, rfl, rfl⟩
      have hnormal := Ip.normal_normal (.v6 octets)
      exact ⟨⟨⟨hnormal, rfl⟩, (Ip.wireOctets_eq_iff hnormal octets).mpr rfl⟩, rfl⟩
  · simp [encode]
  · simp [Fits]

/-- A list of records, possibly empty. -/
lemma listDecoder_inverts : listDecoder.Inverts encodeList (fun rs => ∀ r ∈ rs, r.Normal)
    (fun rs => rs.length ≤ maxCount ∧ ∀ r ∈ rs, r.Fits) :=
  sizedList_inverts decoder_inverts (by decide)

/-- A list of records that is an answer, and therefore not empty. -/
lemma nonemptyListDecoder_inverts :
    nonemptyListDecoder.Inverts encodeList (fun rs => ∀ r ∈ rs, r.Normal)
      (fun rs => (rs.length ≤ maxCount ∧ ∀ r ∈ rs, r.Fits) ∧ rs ≠ []) := by
  refine Inverts.congr (listDecoder_inverts.field id (fun _ h => h) fun rs hrs _ => ?_)
    (fun rs => List.append_nil _) (fun _ => Iff.rfl) (fun _ _ => Iff.rfl)
  split_ifs with hempty
  · refine Inverts.refuse _ fun a ha => ?_
    rw [id_eq] at ha
    rw [ha.2]
    exact not_not_intro (List.isEmpty_iff.mp hempty)
  · refine Inverts.congr (Inverts.pure fun b => ?_) (fun _ => rfl) (fun _ => Iff.rfl)
      fun b hb => ?_
    · rw [id_eq]
      constructor
      · exact And.right
      · rintro rfl
        exact ⟨hrs, rfl⟩
    · have hb' : b = rs := hb.2
      rw [hb']
      simpa [List.isEmpty_iff] using hempty

end AddressRecord

/-! ## Chain objects -/

namespace Header

/-- The cap that is checked when a header is read. -/
def Fits (h : Header) : Prop := h.witness.length ≤ maxWitnessSize

/-- A header is read back just if its witness is not too long. -/
lemma decoder_inverts : decoder.Inverts encode (fun _ => True) Fits := by
  refine Inverts.congr (u32_inverts.field version (fun _ _ => trivial) fun a _ _ =>
    (fixed_inverts 32).field prevHash (fun _ _ => trivial) fun b _ _ =>
    (fixed_inverts 32).field merkleRoot (fun _ _ => trivial) fun c _ _ =>
    u64_inverts.field timestamp (fun _ _ => trivial) fun d _ _ =>
    u64_inverts.field nonce (fun _ _ => trivial) fun e _ _ =>
    u32_inverts.field index (fun _ _ => trivial) fun f _ _ =>
    byte_inverts.field primaryIndex (fun _ _ => trivial) fun g _ _ =>
    (fixed_inverts 20).field nextConsensus (fun _ _ => trivial) fun i _ _ =>
    (sizedBytes_inverts (by decide)).field witness (fun _ _ => trivial) fun j _ _ =>
    Inverts.pure fun h => ?_) (fun h => ?_) (fun _ => Iff.rfl) (fun h _ => ?_)
  · cases h
    simp only [true_and, mk.injEq, and_assoc]
  · simp [encode, encodeUnsigned]
  · simp [Fits]

/-- A list of headers is read back just if it is not too long and each of them keeps its cap. -/
lemma listDecoder_inverts : listDecoder.Inverts encodeList (fun _ => True)
    (fun hs => hs.length ≤ maxCount ∧ ∀ h ∈ hs, h.Fits) :=
  (sizedList_inverts decoder_inverts (by decide)).congr (fun _ => rfl) (fun _ => by simp)
    (fun _ _ => Iff.rfl)

end Header

namespace Transaction

/-- The cap that is checked when a transaction is read. -/
def Fits (tx : Transaction) : Prop := tx.data.length ≤ maxOpaqueSize

/-- A transaction is read back just if it is not too long. -/
lemma decoder_inverts : decoder.Inverts encode (fun _ => True) Fits :=
  (sizedBytes_inverts (by decide)).map data fun bs tx _ => by
    cases tx
    simp only [mk.injEq]

end Transaction

namespace Consensus

/-- The cap that is checked when a consensus message is read. -/
def Fits (c : Consensus) : Prop := c.data.length ≤ maxOpaqueSize

/-- A message of the consensus is read back just if it is not too long. -/
lemma decoder_inverts : decoder.Inverts encode (fun _ => True) Fits :=
  (sizedBytes_inverts (by decide)).map data fun bs c _ => by
    cases c
    simp only [mk.injEq]

end Consensus

namespace Block

/-- The caps that are checked when a block is read. -/
def Fits (b : Block) : Prop :=
  b.header.Fits ∧ b.transactions.length ≤ maxTransactions ∧ ∀ tx ∈ b.transactions, tx.Fits

/-- A block is read back just if its header and its transactions keep their caps. -/
lemma decoder_inverts : decoder.Inverts encode (fun _ => True) Fits := by
  refine Inverts.congr (Header.decoder_inverts.field header (fun _ _ => trivial) fun h _ _ =>
    (sizedList_inverts Transaction.decoder_inverts (by decide)).field transactions
      (fun _ _ => by simp) fun txs _ _ =>
    Inverts.pure fun b => ?_) (fun b => ?_) (fun _ => Iff.rfl) (fun b _ => ?_)
  · cases b
    simp only [true_and, mk.injEq]
  · simp [encode]
  · simp [Fits]

end Block

namespace MerkleBlock

/-- The caps that are checked when a merkle block is read. -/
def Fits (m : MerkleBlock) : Prop :=
  m.header.Fits ∧ m.txCount.toNat ≤ Block.maxTransactions ∧
    m.hashes.length ≤ Block.maxTransactions ∧ m.flags.length ≤ maxFlagsSize

/-- A merkle block is read back just if its header, its hashes and its flags keep their caps. -/
lemma decoder_inverts : decoder.Inverts encode (fun _ => True) Fits := by
  refine Inverts.congr (Header.decoder_inverts.field header (fun _ _ => trivial) fun h _ _ =>
    CompactSize.decoder_inverts.field (fun m : MerkleBlock => m.txCount.toNat) (fun m _ => ?_)
      fun n hn _ =>
    Inverts.guard (fun n => n > Block.maxTransactions) (fun m : MerkleBlock => m.txCount.toNat)
      (fun _ h => h.2) fun hle =>
    (sizedList_inverts (fixed_inverts 32) (by decide)).field hashes (fun _ _ => by simp)
      fun hashes _ _ =>
    (sizedBytes_inverts (by decide)).field flags (fun _ _ => trivial) fun flags _ _ =>
    Inverts.pure fun m => ?_) (fun m => ?_) (fun _ => Iff.rfl) (fun m _ => ?_)
  · exact m.txCount.toNat_lt.trans (by decide)
  · obtain ⟨header, txCount, hashes, flags⟩ := m
    have hcount : txCount.toNat = n ↔ txCount = UInt32.ofNat n := by
      have hlt : n < 2 ^ 32 := (Nat.not_lt.mp hle).trans_lt (by decide)
      rw [← UInt32.toNat_inj, UInt32.toNat_ofNat', Nat.mod_eq_of_lt hlt]
    simp only [true_and, mk.injEq, and_assoc, hcount]
  · simp [encode]
  · simp [Fits]

end MerkleBlock

/-! ## Filters -/

namespace FilterLoad

/-- The caps that are checked when a filter is read. -/
def Fits (f : FilterLoad) : Prop := f.filter.length ≤ maxFilterSize ∧ f.k ≤ maxHashFunctions

/-- A filter is read back just if it is not too large and has not too many functions. -/
lemma decoder_inverts : decoder.Inverts encode (fun _ => True) Fits := by
  refine Inverts.congr ((sizedBytes_inverts (by decide)).field filter (fun _ _ => trivial)
      fun filter _ _ =>
    byte_inverts.field FilterLoad.k (fun _ _ => trivial) fun k _ _ =>
    Inverts.guard (fun k => k > maxHashFunctions) FilterLoad.k (fun _ h => h.2) fun _ =>
    u32_inverts.field tweak (fun _ _ => trivial) fun tweak _ _ =>
    Inverts.pure fun f => ?_) (fun f => ?_) (fun _ => Iff.rfl) (fun f _ => ?_)
  · cases f
    simp only [true_and, mk.injEq, and_assoc]
  · simp [encode]
  · simp [Fits]

end FilterLoad

namespace FilterAdd

/-- The cap that is checked when an element is read. -/
def Fits (f : FilterAdd) : Prop := f.data.length ≤ maxDataSize

/-- An element for a filter is read back just if it is not too long. -/
lemma decoder_inverts : decoder.Inverts encode (fun _ => True) Fits :=
  (sizedBytes_inverts (by decide)).map data fun bs f _ => by
    cases f
    simp only [mk.injEq]

end FilterAdd

/-! ## Single bytes with a meaning -/

/-- A byte that stands for one of finitely many values. -/
lemma Decoder.orRefuse_inverts {κ : Type} {ofCode? : UInt8 → Option κ} {code : κ → UInt8}
    (hcode : ∀ b k, ofCode? b = some k ↔ code k = b) (cause : Malformed) :
    (do orRefuse (ofCode? (← byte)) cause).Inverts (fun k => [code k]) (fun _ => True)
      (fun _ => True) := by
  refine Inverts.congr (byte_inverts.field code (fun _ _ => trivial) fun b _ _ => ?_)
    (fun _ => List.append_nil _) (fun _ => Iff.rfl) (fun _ _ => by rw [and_true])
  cases h : ofCode? b with
  | none =>
    refine Inverts.refuse cause fun k hk => ?_
    rw [(hcode b k).mpr hk.2] at h
    exact absurd h (Option.some_ne_none k)
  | some k₀ =>
    refine Inverts.pure fun k => ?_
    rw [true_and, ← hcode, h, Option.some.injEq, eq_comm]

/-- The kinds of inventory and their bytes. -/
lemma InventoryKind.ofCode?_eq_some_iff (b : UInt8) (k : InventoryKind) :
    ofCode? b = some k ↔ k.code = b := by
  constructor
  · intro h
    unfold ofCode? at h
    split_ifs at h with h1 h2 h3 <;> simp only [Option.some.injEq] at h <;> subst h
    · exact h1.symm
    · exact h2.symm
    · exact h3.symm
  · rintro rfl
    cases k <;> rfl

/-- The reasons for a disconnect and their bytes. -/
lemma DisconnectReason.ofCode?_eq_some_iff (b : UInt8) (r : DisconnectReason) :
    ofCode? b = some r ↔ r.code = b := by
  constructor
  · intro h
    have hcode := List.find?_some h
    exact beq_iff_eq.mp hcode
  · rintro rfl
    cases r <;> rfl

/-- The commands and their bytes. -/
lemma Command.ofCode?_eq_some_iff (b : UInt8) (c : Command) :
    ofCode? b = some c ↔ c.code = b := by
  constructor
  · intro h
    have hcode := List.find?_some h
    exact beq_iff_eq.mp hcode
  · rintro rfl
    cases c <;> rfl

/-! ## Disconnect notices -/

namespace Disconnect

/-- The caps that are checked when a notice is read. -/
def Fits (d : Disconnect) : Prop :=
  d.message.utf8ByteSize ≤ maxMessageSize ∧ d.data.length ≤ maxDataSize

/-- A notice is read back just if its text and its data keep their caps. -/
lemma decoder_inverts : decoder.Inverts encode (fun _ => True) Fits := by
  have h : decoder = (do
      let reason ← (do orRefuse (DisconnectReason.ofCode? (← byte)) .unknownDisconnectReason)
      return { reason, message := ← sizedText maxMessageSize, data := ← sizedBytes maxDataSize }) :=
    (bind_assoc _ _ _).symm
  rw [h]
  refine Inverts.congr ((orRefuse_inverts DisconnectReason.ofCode?_eq_some_iff _).field reason
      (fun _ _ => trivial) fun a _ _ =>
    (sizedText_inverts (by decide)).field message (fun _ _ => trivial) fun b _ _ =>
    (sizedBytes_inverts (by decide)).field data (fun _ _ => trivial) fun c _ _ =>
    Inverts.pure fun d => ?_) (fun d => ?_) (fun _ => Iff.rfl) (fun d _ => ?_)
  · cases d
    simp only [true_and, mk.injEq, and_assoc]
  · simp [encode]
  · simp [Fits]

end Disconnect

/-! ## Hashes, walks and ranges -/

namespace HashList

/-- The cap that is checked when an announcement is read. -/
def Fits (l : HashList) : Prop := l.hashes.length ≤ maxCount

/-- A list of hashes is read back just if it is not too long. -/
lemma decoder_inverts : decoder.Inverts encode (fun _ => True) Fits := by
  refine Inverts.congr ((orRefuse_inverts InventoryKind.ofCode?_eq_some_iff _).field kind
      (fun _ _ => trivial) fun a _ _ =>
    (sizedList_inverts (fixed_inverts 32) (by decide)).field hashes (fun _ _ => by simp)
      fun b _ _ =>
    Inverts.pure fun l => ?_) (fun l => ?_) (fun _ => Iff.rfl) (fun l _ => ?_)
  · cases l
    simp only [true_and, mk.injEq]
  · simp [encode]
  · simp [Fits]

/-- Whole hashes can be cut from any byte string of the right length. -/
lemma exists_flatMap_toList_eq (n : Nat) {bs : Bytes} (h : bs.length = 32 * n) :
    ∃ hs : List Hash, hs.length = n ∧ hs.flatMap FixedBytes.toList = bs := by
  induction n generalizing bs with
  | zero => exact ⟨[], rfl, (List.length_eq_zero_iff.mp h).symm⟩
  | succ n ih =>
    have hfront : (bs.take 32).length = 32 := by
      rw [List.length_take]
      omega
    have hback : (bs.drop 32).length = 32 * n := by
      rw [List.length_drop]
      omega
    obtain ⟨hs, hlen, hcat⟩ := ih hback
    refine ⟨⟨bs.take 32, hfront⟩ :: hs, by rw [List.length_cons, hlen], ?_⟩
    rw [List.flatMap_cons, hcat, List.take_append_drop]

/-- Hashes take 32 bytes each. -/
lemma length_flatMap_toList (hs : List Hash) :
    (hs.flatMap FixedBytes.toList).length = 32 * hs.length := by
  induction hs with
  | nil => rfl
  | cons h hs ih =>
    rw [List.flatMap_cons, List.length_append, ih, h.length_toList, List.length_cons]
    omega

/-- A request is read from a number of hashes that has a written form; all of them are read, and
the first `maxCount` are kept. -/
lemma requestDecoder_eq_ok_iff {bs rest : Bytes} {l : HashList} :
    requestDecoder bs = .ok (l, rest) ↔
      ∃ hs : List Hash, hs.length < 2 ^ 64 ∧ bs = encode ⟨l.kind, hs⟩ ++ rest ∧
        l.hashes = hs.take maxCount := by
  have hkind := orRefuse_inverts InventoryKind.ofCode?_eq_some_iff .unknownInventoryType
  unfold requestDecoder
  constructor
  · intro hread
    obtain ⟨kind, bs₁, hread₁, hread⟩ := bind_eq_ok_iff.mp hread
    obtain ⟨count, bs₂, hread₂, hread⟩ := bind_eq_ok_iff.mp hread
    obtain ⟨kept, bs₃, hread₃, hread⟩ := bind_eq_ok_iff.mp hread
    obtain ⟨cut, bs₄, hread₄, hpure⟩ := bind_eq_ok_iff.mp hread
    simp only [pure_apply, Except.ok.injEq, Prod.mk.injEq] at hpure
    obtain ⟨rfl, rfl⟩ := hpure
    obtain ⟨-, -, rfl⟩ := hkind.eq_encode hread₁
    obtain ⟨hcount, -, rfl⟩ := CompactSize.decoder_inverts.eq_encode hread₂
    obtain ⟨⟨-, hkept⟩, -, rfl⟩ := (items_inverts (fixed_inverts 32) _).eq_encode hread₃
    obtain ⟨hcut, rfl⟩ := take_eq_ok_iff.mp hread₄
    -- The bytes left out are whole hashes as well.
    obtain ⟨more, hmore, rfl⟩ := exists_flatMap_toList_eq _ hcut
    have hlen : (kept ++ more).length = count := by
      rw [List.length_append, hkept, hmore]
      omega
    refine ⟨kept ++ more, hlen ▸ hcount, ?_, ?_⟩
    · simp only [encode, encodeSizedList, hlen, List.flatMap_append, List.cons_append,
        List.nil_append, List.append_assoc]
    · rcases Nat.le_total count maxCount with hle | hle
      · have hnone : more = [] := List.length_eq_zero_iff.mp (by omega)
        rw [hnone, List.append_nil, List.take_of_length_le (by omega)]
      · rw [List.take_append_of_le_length (by omega), List.take_of_length_le (by omega)]
  · rintro ⟨hs, hlen, rfl, hkept⟩
    obtain ⟨kind, hashes⟩ := l
    dsimp only at hkept
    subst hkept
    have hcut : ((hs.drop maxCount).flatMap FixedBytes.toList).length =
        32 * (hs.length - maxCount) := by
      rw [length_flatMap_toList, List.length_drop]
    have hcat : hs.flatMap FixedBytes.toList =
        (hs.take maxCount).flatMap FixedBytes.toList ++
          (hs.drop maxCount).flatMap FixedBytes.toList := by
      rw [← List.flatMap_append, List.take_append_drop]
    have hitems := (items_inverts (fixed_inverts 32) (min hs.length maxCount)).decode_encode
      (a := hs.take maxCount) ⟨fun _ _ => trivial, by rw [List.length_take, Nat.min_comm]⟩
      (fun _ _ => trivial)
    simp only [encode, encodeSizedList, List.cons_append, List.append_assoc, hcat]
    refine (bind_apply_of_ok (hkind.decode_encode trivial trivial _)).trans ?_
    refine (bind_apply_of_ok (CompactSize.decoder_inverts.decode_encode hlen trivial _)).trans ?_
    rw [bind_apply_of_ok (hitems _), bind_apply_of_ok (take_append hcut rest)]
    rfl

/-- A request that fills a byte string. -/
lemma decodeRequest_eq_ok_iff {bs : Bytes} {l : HashList} :
    decodeRequest bs = .ok l ↔
      ∃ hs : List Hash, hs.length < 2 ^ 64 ∧ bs = encode ⟨l.kind, hs⟩ ∧
        l.hashes = hs.take maxCount := by
  have hread : requestDecoder bs = .ok (l, []) ↔ _ := requestDecoder_eq_ok_iff
  simp only [List.append_nil] at hread
  rw [← hread, decodeRequest]
  constructor
  · intro h
    split at h
    · rename_i l' hl'
      obtain rfl : l' = l := by simpa using h
      exact hl'
    · simp at h
    · simp at h
  · intro h
    rw [h]

end HashList

namespace ChainWalk

/-- A walk along the chain is read back, whatever it asks for. -/
lemma decoder_inverts : decoder.Inverts encode (fun _ => True) (fun _ => True) := by
  refine Inverts.congr ((fixed_inverts 32).field start (fun _ _ => trivial) fun a _ _ =>
    i16_inverts.field count (fun _ _ => trivial) fun b _ _ =>
    Inverts.pure fun w => ?_) (fun w => ?_) (fun _ => Iff.rfl) (fun w _ => ?_)
  · cases w
    simp only [true_and, mk.injEq]
  · simp [encode]
  · simp

end ChainWalk

namespace BlockRange

/-- A range of blocks is read back, whatever it asks for. -/
lemma decoder_inverts : decoder.Inverts encode (fun _ => True) (fun _ => True) := by
  refine Inverts.congr (u32_inverts.field start (fun _ _ => trivial) fun a _ _ =>
    u16_inverts.field count (fun _ _ => trivial) fun b _ _ =>
    Inverts.pure fun r => ?_) (fun r => ?_) (fun _ => Iff.rfl) (fun r _ => ?_)
  · cases r
    simp only [true_and, mk.injEq]
  · simp [encode]
  · simp

end BlockRange

namespace Ping

/-- A ping is read back, whatever it says. -/
lemma decoder_inverts : decoder.Inverts encode (fun _ => True) (fun _ => True) := by
  refine Inverts.congr (u32_inverts.field lastBlockIndex (fun _ _ => trivial) fun a _ _ =>
    u32_inverts.field timestamp (fun _ _ => trivial) fun b _ _ =>
    u32_inverts.field nonce (fun _ _ => trivial) fun c _ _ =>
    Inverts.pure fun p => ?_) (fun p => ?_) (fun _ => Iff.rfl) (fun p _ => ?_)
  · cases p
    simp only [true_and, mk.injEq, and_assoc]
  · simp [encode]
  · simp

end Ping

end PeerNet
