import PeerNet.Proofs.Codec.Payload

/-!
# Requests beyond the cap

A list of hashes says how many there are before the first of them (`HashList.announced?`).  As long
as that is within the cap, it makes no difference whether the list is read as an announcement or as
a request.  Beyond the cap an announcement is refused unread, and a request is read to its end for
the sake of its first hashes.

The number may be anything below `2 ^ 64`, and it is the sender who chooses it.  Read hash by hash
(`HashList.scan`), a request takes no more turns than there are bytes for, and one more to find out
that they have come to an end; and never are there more hashes held than the cap allows.
-/

namespace PeerNet

open Decoder

namespace HashList

/-! ## What is announced -/

/-- The number of hashes that a list says it has. -/
def announced? (bs : Bytes) : Option Nat :=
  match (do let _ ← InventoryKind.decoder; CompactSize.decoder : Decoder Nat) bs with
  | .ok (count, _) => some count
  | .error _ => none

/-- The kind of an object is read back from its code. -/
lemma kind_decoder_inverts :
    InventoryKind.decoder.Inverts (fun kind => [kind.code]) (fun _ => True) (fun _ => True) :=
  orRefuse_inverts InventoryKind.ofCode?_eq_some_iff .unknownInventoryType

/-- What stands behind the kind and the number does not matter to what is announced. -/
lemma announced?_eq_some_iff {bs : Bytes} {count : Nat} :
    announced? bs = some count ↔ count < 2 ^ 64 ∧
      ∃ (kind : InventoryKind) (tail : Bytes),
        bs = kind.code :: (CompactSize.encode count ++ tail) := by
  constructor
  · intro h
    unfold announced? at h
    split at h
    · next count' tail hread =>
      obtain rfl : count' = count := Option.some.inj h
      obtain ⟨kind, behind, hkind, hcount⟩ := bind_eq_ok_iff.mp hread
      obtain ⟨-, -, rfl⟩ := kind_decoder_inverts.eq_encode hkind
      obtain ⟨hlt, -, rfl⟩ := CompactSize.decoder_inverts.eq_encode hcount
      exact ⟨hlt, kind, tail, rfl⟩
    · exact absurd h nofun
  · rintro ⟨hlt, kind, tail, rfl⟩
    have hkind := kind_decoder_inverts.decode_encode (a := kind) trivial trivial
      (CompactSize.encode count ++ tail)
    have hcount := CompactSize.decoder_inverts.decode_encode hlt trivial tail
    rw [List.singleton_append] at hkind
    rw [announced?, bind_apply_of_ok hkind, hcount]

/-- A list of hashes announces their number. -/
lemma announced?_encode {l : HashList} (hlt : l.hashes.length < 2 ^ 64) :
    announced? l.encode = some l.hashes.length :=
  announced?_eq_some_iff.mpr ⟨hlt, l.kind, _, rfl⟩

/-! ## Announcements and requests -/

variable {bs : Bytes} {l : HashList}

/-- Within the cap, an announcement and a request are the same. -/
lemma decodeAll_decoder_eq_ok_iff :
    decodeAll decoder bs = .ok l ↔
      decodeRequest bs = .ok l ∧ ∃ count ≤ maxCount, announced? bs = some count := by
  rw [decoder_inverts.decodeAll_eq_ok_iff, decodeRequest_eq_ok_iff]
  constructor
  · rintro ⟨-, hfits, rfl⟩
    have hlt : l.hashes.length < 2 ^ 64 := lt_of_le_of_lt hfits (by decide)
    exact ⟨⟨l.hashes, hlt, rfl, (List.take_of_length_le hfits).symm⟩, _, hfits,
      announced?_encode hlt⟩
  · rintro ⟨⟨hs, hlt, rfl, hkept⟩, count, hle, hcount⟩
    obtain rfl := Option.some.inj (hcount.symm.trans (announced?_encode hlt))
    have hall : l.hashes = hs := hkept.trans (List.take_of_length_le hle)
    rw [← hall] at hle ⊢
    exact ⟨trivial, hle, rfl⟩

/-- An announcement beyond the cap is refused for the number in front, whatever stands behind it. -/
lemma decodeAll_decoder_of_lt {count : Nat} (hcount : announced? bs = some count)
    (hlt : maxCount < count) : decodeAll decoder bs = .error (.oversized count maxCount) := by
  obtain ⟨hsmall, kind, tail, rfl⟩ := announced?_eq_some_iff.mp hcount
  have hkind := kind_decoder_inverts.decode_encode (a := kind) trivial trivial
    (CompactSize.encode count ++ tail)
  have hread := CompactSize.decoder_inverts.decode_encode hsmall trivial tail
  have hlength : lengthUpTo maxCount (CompactSize.encode count ++ tail) =
      .error (.oversized count maxCount) := (lengthUpTo_of_ok hread).trans (if_pos hlt)
  have hlist : sizedList (fixed 32) maxCount (CompactSize.encode count ++ tail) =
      .error (.oversized count maxCount) := bind_apply_of_error hlength
  rw [decodeAll, decoder, ← List.singleton_append, bind_apply_of_ok hkind,
    bind_apply_of_error hlist]

/-- A request is accepted exactly if it has as many bytes as its number of hashes takes. -/
lemma exists_decodeRequest_iff :
    (∃ l, decodeRequest bs = .ok l) ↔
      ∃ (kind : InventoryKind) (count : Nat) (tail : Bytes), count < 2 ^ 64 ∧
        bs = kind.code :: (CompactSize.encode count ++ tail) ∧ tail.length = 32 * count := by
  constructor
  · rintro ⟨l, hread⟩
    obtain ⟨hs, hlt, rfl, -⟩ := decodeRequest_eq_ok_iff.mp hread
    exact ⟨l.kind, hs.length, hs.flatMap FixedBytes.toList, hlt, rfl, length_flatMap_toList hs⟩
  · rintro ⟨kind, count, tail, hlt, rfl, htail⟩
    obtain ⟨hs, rfl, rfl⟩ := exists_flatMap_toList_eq count htail
    exact ⟨⟨kind, hs.take maxCount⟩, decodeRequest_eq_ok_iff.mpr ⟨hs, hlt, rfl, rfl⟩⟩

/-- The first bytes of hashes are the bytes of the first hashes. -/
lemma take_flatMap_toList (n : Nat) (hs : List Hash) :
    (hs.flatMap FixedBytes.toList).take (32 * n) = (hs.take n).flatMap FixedBytes.toList := by
  induction hs generalizing n with
  | nil => rw [List.flatMap_nil, List.take_nil, List.take_nil, List.flatMap_nil]
  | cons h hs ih =>
    cases n with
    | zero => rfl
    | succ n =>
      have hrest : 32 * (n + 1) - h.toList.length = 32 * n := by
        rw [h.length_toList]
        omega
      rw [List.take_succ_cons, List.flatMap_cons, List.flatMap_cons, List.take_append, hrest, ih,
        List.take_of_length_le]
      rw [h.length_toList]
      omega

/-- What is kept of a request are the hashes that come first in it, in their order. -/
lemma exists_tail_of_decodeRequest {count : Nat} (hcount : announced? bs = some count)
    (hread : decodeRequest bs = .ok l) :
    ∃ tail : Bytes, bs = l.kind.code :: (CompactSize.encode count ++ tail) ∧
      tail.length = 32 * count ∧ l.hashes.length = min count maxCount ∧
      l.hashes.flatMap FixedBytes.toList = tail.take (32 * maxCount) := by
  obtain ⟨hs, hlt, rfl, hkept⟩ := decodeRequest_eq_ok_iff.mp hread
  obtain rfl := Option.some.inj ((announced?_encode hlt).symm.trans hcount)
  refine ⟨hs.flatMap FixedBytes.toList, rfl, length_flatMap_toList hs, ?_, ?_⟩
  · rw [hkept, List.length_take, min_comm]
  · rw [hkept, take_flatMap_toList]

/-! ## Hash by hash -/

/-- What is held after one more hash. -/
def hold (kept : List Hash) (h : Hash) : List Hash :=
  if kept.length < maxCount then kept ++ [h] else kept

/-- Reads one hash after the other and keeps it while there is room.  What is held is noted whenever
a turn begins, and at the end. -/
def scan : (left : Nat) → (kept : List Hash) → Bytes →
    List (List Hash) × Except DecodeError (List Hash × Bytes)
  | 0, kept, bs => ([kept], .ok (kept, bs))
  | left + 1, kept, bs =>
    match fixed 32 bs with
    | .ok (h, rest) =>
      let later := scan left (hold kept h) rest
      (kept :: later.1, later.2)
    | .error e => ([kept], .error e)

/-- Reads a request hash by hash. -/
def scanningDecoder : Decoder HashList := do
  let kind ← InventoryKind.decoder
  let count ← CompactSize.decoder
  let hashes ← fun rest => (scan count [] rest).2
  return ⟨kind, hashes⟩

/-- No more hashes are held than a list may have. -/
lemma length_hold_le {kept : List Hash} (h : kept.length ≤ maxCount) (x : Hash) :
    (hold kept x).length ≤ maxCount := by
  unfold hold
  split
  · next hroom => rwa [List.length_append]
  · exact h

/-- However many hashes a request says it has, no more than `maxCount` are held at any time. -/
lemma length_le_of_mem_scan {left : Nat} {kept held : List Hash} (h : kept.length ≤ maxCount)
    (hheld : held ∈ (scan left kept bs).1) : held.length ≤ maxCount := by
  induction left generalizing kept bs with
  | zero =>
    obtain rfl := List.mem_singleton.mp hheld
    exact h
  | succ left ih =>
    rw [scan] at hheld
    split at hheld
    · next x rest hread =>
      rcases List.mem_cons.mp hheld with rfl | hlater
      · exact h
      · exact ih (length_hold_le h x) hlater
    · obtain rfl := List.mem_singleton.mp hheld
      exact h

/-- However many hashes a request says it has, there is a turn for every hash that is there, and one
more. -/
lemma length_scan_le (left : Nat) (kept : List Hash) (bs : Bytes) :
    (scan left kept bs).1.length ≤ bs.length / 32 + 1 := by
  induction left generalizing kept bs with
  | zero => exact Nat.le_add_left 1 _
  | succ left ih =>
    rw [scan]
    split
    · next x rest hread =>
      obtain ⟨-, -, rfl⟩ := (fixed_inverts 32).eq_encode hread
      have hrest := ih (hold kept x) rest
      rw [List.length_cons, List.length_append, x.length_toList]
      omega
    · exact Nat.le_add_left 1 _

/-- A turn reads one hash, and goes on with what is held then. -/
lemma scan_succ (left : Nat) (kept : List Hash) (bs : Bytes) :
    (scan (left + 1) kept bs).2 =
      (fixed 32 >>= fun h rest => (scan left (hold kept h) rest).2 : Decoder (List Hash)) bs := by
  rw [scan]
  split
  · next h rest hread => rw [bind_apply_of_ok hread]
  · next e hread => rw [bind_apply_of_error hread]

/-- Once there is no more room, the hashes that are left are passed over. -/
lemma scan_of_full (left : Nat) {kept : List Hash} (hfull : maxCount ≤ kept.length) (bs : Bytes) :
    (scan left kept bs).2 =
      (do let _ ← take (32 * left); return kept : Decoder (List Hash)) bs := by
  induction left generalizing bs with
  | zero =>
    have hnone : take (32 * 0) bs = .ok ([], bs) := take_append List.length_nil bs
    rw [bind_apply_of_ok hnone]
    rfl
  | succ left ih =>
    have hlater : (fun (h : Hash) rest => (scan left (hold kept h) rest).2) =
        fun _ => (do let _ ← take (32 * left); return kept : Decoder (List Hash)) := by
      funext h rest
      have hsame : hold kept h = kept := if_neg (Nat.not_lt.mpr hfull)
      rw [hsame, ih]
    rw [scan_succ, hlater, Nat.mul_succ, Nat.add_comm, pass_add]

/-- While there is room for `room` more, the hashes up to there are kept, and the others are passed
over. -/
lemma scan_eq (left : Nat) {room : Nat} {kept : List Hash} (hroom : kept.length + room = maxCount)
    (bs : Bytes) :
    (scan left kept bs).2 = (do
      let more ← items (fixed 32) (min left room)
      let _ ← take (32 * (left - room))
      return kept ++ more : Decoder (List Hash)) bs := by
  induction left generalizing room kept bs with
  | zero =>
    have hnone : take (32 * (0 - room)) bs = .ok ([], bs) := by
      rw [Nat.zero_sub]
      exact take_append List.length_nil bs
    rw [Nat.zero_min, bind_apply_of_ok (items_zero _ bs), bind_apply_of_ok hnone, List.append_nil]
    rfl
  | succ left ih =>
    cases room with
    | zero =>
      rw [scan_of_full (left + 1) (by omega) bs, Nat.min_zero, bind_apply_of_ok (items_zero _ bs),
        Nat.sub_zero, List.append_nil]
    | succ room =>
      have hlater : (fun (h : Hash) rest => (scan left (hold kept h) rest).2) = fun h => (do
          let more ← items (fixed 32) (min left room)
          let _ ← take (32 * (left - room))
          return kept ++ h :: more : Decoder (List Hash)) := by
        funext h rest
        have hkept : hold kept h = kept ++ [h] := if_pos (by omega)
        have hnext : (kept ++ [h]).length + room = maxCount := by
          rw [List.length_append, List.length_singleton]
          omega
        simp only [hkept, ih hnext, List.append_assoc, List.singleton_append]
      rw [scan_succ, hlater, Nat.succ_min_succ, Nat.add_sub_add_right, items_succ]
      simp only [bind_assoc, pure_bind]

/-- A request read hash by hash is the request. -/
lemma scanningDecoder_eq : scanningDecoder = requestDecoder := by
  unfold scanningDecoder requestDecoder
  congr 1
  funext kind
  congr 1
  funext count
  have hscan : (fun rest => (scan count [] rest).2 : Decoder (List Hash)) = _ :=
    funext fun rest => scan_eq count (Nat.zero_add maxCount) rest
  rw [hscan]
  simp only [bind_assoc, pure_bind, List.nil_append]

/-! ## The two together -/

/-- An announcement is refused wherever a request is. -/
lemma decodeAll_decoder_eq_error {e : DecodeError} (h : decodeRequest bs = .error e) :
    ∃ e', decodeAll decoder bs = .error e' := by
  cases hread : decodeAll decoder bs with
  | error e' => exact ⟨e', rfl⟩
  | ok l =>
    rw [(decodeAll_decoder_eq_ok_iff.mp hread).1] at h
    exact absurd h nofun

/-- A request is read like an announcement as long as there are no more hashes announced than the
cap allows.  Beyond the cap an announcement is refused, and a request is accepted exactly if it is
the byte of a kind, the number of hashes in its shortest form, and 32 bytes for each of them; the
first `maxCount` of them are kept, in their order.  Whatever is not of that form is refused in
either way.

Hash by hash, the same is read from every byte string.  Whatever number is announced, the turns are
no more than the bytes allow, and no more than `maxCount` hashes are held in any of them. -/
theorem decodeRequest_extends_announcement (bs : Bytes) :
    (∀ l, decodeAll decoder bs = .ok l ↔
      decodeRequest bs = .ok l ∧ ∃ count ≤ maxCount, announced? bs = some count) ∧
    (∀ count, announced? bs = some count → maxCount < count →
      decodeAll decoder bs = .error (.oversized count maxCount) ∧
      ((∃ l, decodeRequest bs = .ok l) ↔ ∃ (kind : InventoryKind) (tail : Bytes),
        bs = kind.code :: (CompactSize.encode count ++ tail) ∧ tail.length = 32 * count) ∧
      ∀ l, decodeRequest bs = .ok l → ∃ tail : Bytes,
        bs = l.kind.code :: (CompactSize.encode count ++ tail) ∧ tail.length = 32 * count ∧
        l.hashes.length = maxCount ∧
        l.hashes.flatMap FixedBytes.toList = tail.take (32 * maxCount)) ∧
    ((∃ e e', decodeAll decoder bs = .error e ∧ decodeRequest bs = .error e') ↔
      ¬ ∃ (kind : InventoryKind) (count : Nat) (tail : Bytes), count < 2 ^ 64 ∧
        bs = kind.code :: (CompactSize.encode count ++ tail) ∧ tail.length = 32 * count) ∧
    requestDecoder bs = scanningDecoder bs ∧
    ∀ count rest, (scan count [] rest).1.length ≤ rest.length / 32 + 1 ∧
      ∀ held ∈ (scan count [] rest).1, held.length ≤ maxCount := by
  refine ⟨fun l => decodeAll_decoder_eq_ok_iff, ?_, ?_, by rw [scanningDecoder_eq], ?_⟩
  · intro count hcount hlt
    refine ⟨decodeAll_decoder_of_lt hcount hlt, ?_, ?_⟩
    · obtain ⟨hsmall, -⟩ := announced?_eq_some_iff.mp hcount
      rw [exists_decodeRequest_iff]
      constructor
      · rintro ⟨kind, count', tail, hsmall', hbs, htail⟩
        have hcount' := announced?_eq_some_iff.mpr ⟨hsmall', kind, tail, hbs⟩
        obtain rfl := Option.some.inj (hcount'.symm.trans hcount)
        exact ⟨kind, tail, hbs, htail⟩
      · rintro ⟨kind, tail, hbs, htail⟩
        exact ⟨kind, count, tail, hsmall, hbs, htail⟩
    · intro l hread
      obtain ⟨tail, hbs, htail, hlength, hkept⟩ := exists_tail_of_decodeRequest hcount hread
      exact ⟨tail, hbs, htail, hlength.trans (min_eq_right hlt.le), hkept⟩
  · rw [← exists_decodeRequest_iff]
    cases hread : decodeRequest bs with
    | ok l => exact ⟨fun ⟨_, _, _, h⟩ => absurd h nofun, fun h => absurd ⟨l, rfl⟩ h⟩
    | error e =>
      obtain ⟨e', hstrict⟩ := decodeAll_decoder_eq_error hread
      exact ⟨fun _ ⟨_, h⟩ => absurd h nofun, fun _ => ⟨e', e, hstrict, rfl⟩⟩
  · intro count rest
    exact ⟨length_scan_le count [] rest, fun held => length_le_of_mem_scan (Nat.zero_le _)⟩

/-- A request for one transaction too many is served for the others, where an announcement of as
many is refused.  The largest number there is, with no hash behind it, takes a single turn. -/
theorem decodeRequest_extends_announcement_of_one_too_many :
    let hashes : List Hash := List.replicate 501 (FixedBytes.zero 32)
    let bs : Bytes := 0x2b :: (CompactSize.encode 501 ++ hashes.flatMap FixedBytes.toList)
    announced? bs = some 501 ∧ maxCount < 501 ∧
    decodeAll decoder bs = .error (.oversized 501 500) ∧
    (∃ l, decodeRequest bs = .ok l ∧ l.hashes.length = 500) ∧
    (scan (2 ^ 64 - 1) [] []).1.length ≤ 1 := by
  intro hashes bs
  have htail : (hashes.flatMap FixedBytes.toList).length = 32 * 501 := by
    rw [length_flatMap_toList, List.length_replicate]
  have hcount : announced? bs = some 501 :=
    announced?_eq_some_iff.mpr ⟨by decide, .transaction, _, rfl⟩
  obtain ⟨-, hbeyond, -, -, hscan⟩ := decodeRequest_extends_announcement bs
  obtain ⟨hstrict, haccepts, hkept⟩ := hbeyond 501 hcount (by decide)
  obtain ⟨l, hread⟩ := haccepts.mpr ⟨.transaction, _, rfl, htail⟩
  obtain ⟨tail, -, -, hlength, -⟩ := hkept l hread
  exact ⟨hcount, by decide, hstrict, ⟨l, hread, hlength⟩, (hscan (2 ^ 64 - 1) []).1⟩

end HashList

end PeerNet
