import PeerNet.Proofs.Codec.Payload

/-!
# The caps of a message

`Message.Fits` collects the caps that the payload decoders check, and `Message.Normal` the one
condition under which an address survives the wire.  A payload is read back as the message that was
written, with one exception: a request for more than five hundred hashes is accepted, but only its
first five hundred hashes are kept.  `Message.served` is the message that a receiver gets to see.

The commands are gone through three times, once for each part of the law of `Decoder.Inverts`; the
framing never looks at a single command again.
-/

namespace PeerNet

namespace Message

/-- Every address has the spelling that comparison uses. -/
def Normal : Message → Prop
  | addr records => ∀ r ∈ records, r.Normal
  | _ => True

/-- The caps that are checked when the payload is read. -/
def Fits : Message → Prop
  | version v => v.Fits
  | disconnect d => d.Fits
  | addr records =>
    (records.length ≤ AddressRecord.maxCount ∧ ∀ r ∈ records, r.Fits) ∧ records ≠ []
  | headers hs => hs.length ≤ Header.maxCount ∧ ∀ h ∈ hs, h.Fits
  | inv l | getData l | notFound l => l.Fits
  | transaction tx => tx.Fits
  | block b => b.Fits
  | consensus c => c.Fits
  | filterLoad f => f.Fits
  | filterAdd f => f.Fits
  | merkleBlock m => m.Fits
  | verack | getAddr | ping _ | pong _ | getHeaders _ | getBlocks _ | mempool | getBlockData _
  | reject _ | filterClear | alert _ => True

/-- What a receiver accepts: the same, except that a request may name any number of hashes whose
count can be written. -/
def Accepted : Message → Prop
  | getData l => l.hashes.length < 2 ^ 64
  | m => m.Fits

/-- What a receiver gets to see: a request is cut down to the hashes that are served. -/
def served : Message → Message
  | getData l => getData ⟨l.kind, l.hashes.take HashList.maxCount⟩
  | m => m

/-- A request within the cap is served as a whole. -/
lemma served_getData_of_le {l : HashList} (h : l.hashes.length ≤ HashList.maxCount) :
    (getData l).served = getData l := by
  rw [served, List.take_of_length_le h]

/-- A message within its caps is accepted. -/
lemma accepted_of_fits {m : Message} (h : m.Fits) : m.Accepted := by
  cases m with
  | getData l => exact Nat.lt_of_le_of_lt h (by decide)
  | _ => exact h

/-- A message within its caps is seen as it was sent. -/
lemma served_of_fits {m : Message} (h : m.Fits) : m.served = m := by
  cases m with
  | getData l => exact served_getData_of_le h
  | _ => rfl

/-- Serving a message keeps its command. -/
lemma command_served (m : Message) : m.served.command = m.command := by
  cases m <;> rfl

/-! ## One command -/

section Branch

variable {α : Type} {d : Decoder α} {enc : α → Bytes} {dom fits : α → Prop}

/-- A payload that fits is read and wrapped. -/
lemma map_decodeAll_encode (hd : d.Inverts enc dom fits) (wrap : α → Message) {a : α}
    (hdom : dom a) (hfits : fits a) : wrap <$> d.decodeAll (enc a) = .ok (wrap a) := by
  rw [hd.decodeAll_eq_ok_iff.mpr ⟨hdom, hfits, rfl⟩]
  rfl

/-- A wrapped payload was read from its written form. -/
lemma exists_of_map_decodeAll (hd : d.Inverts enc dom fits) {wrap : α → Message} {bs : Bytes}
    {m : Message} (h : wrap <$> d.decodeAll bs = .ok m) :
    ∃ a, m = wrap a ∧ dom a ∧ fits a ∧ bs = enc a := by
  cases hread : d.decodeAll bs with
  | error e =>
    rw [hread] at h
    exact absurd h (by simp [Functor.map, Except.map])
  | ok a =>
    rw [hread] at h
    obtain rfl : wrap a = m := by simpa [Functor.map, Except.map] using h
    exact ⟨a, rfl, hd.decodeAll_eq_ok_iff.mp hread⟩

/-- A payload that does not fit is refused. -/
lemma map_decodeAll_eq_error (hd : d.Inverts enc dom fits) (wrap : α → Message) {a : α}
    (hdom : dom a) (hfits : ¬ fits a) : ∃ e, wrap <$> d.decodeAll (enc a) = .error e := by
  obtain ⟨e, he⟩ := hd.decodeAll_eq_error hdom hfits
  exact ⟨e, by rw [he]; rfl⟩

end Branch

/-- A command without a payload is read from no bytes at all. -/
lemma ofEmpty_eq_ok_iff {m w : Message} {bs : Bytes} : ofEmpty w bs = .ok m ↔ m = w ∧ bs = [] := by
  cases bs with
  | nil => simp [ofEmpty, eq_comm]
  | cons b bs => simp [ofEmpty]

/-! ## All commands -/

/-- What was written of an accepted message is read as what is served of it. -/
lemma decodePayload_encodePayload {m : Message} (hnormal : m.Normal) (hacc : m.Accepted) :
    decodePayload m.command m.encodePayload = .ok m.served := by
  cases m with
  | version v => exact map_decodeAll_encode Version.decoder_inverts version trivial hacc
  | disconnect d => exact map_decodeAll_encode Disconnect.decoder_inverts disconnect trivial hacc
  | addr records =>
    exact map_decodeAll_encode AddressRecord.nonemptyListDecoder_inverts addr hnormal hacc
  | ping p => exact map_decodeAll_encode Ping.decoder_inverts ping trivial trivial
  | pong p => exact map_decodeAll_encode Ping.decoder_inverts pong trivial trivial
  | getHeaders walk =>
    exact map_decodeAll_encode ChainWalk.decoder_inverts getHeaders trivial trivial
  | headers hs => exact map_decodeAll_encode Header.listDecoder_inverts headers trivial hacc
  | getBlocks walk =>
    exact map_decodeAll_encode ChainWalk.decoder_inverts getBlocks trivial trivial
  | inv l => exact map_decodeAll_encode HashList.decoder_inverts inv trivial hacc
  | getData l =>
    have hread : HashList.decodeRequest l.encode =
        .ok ⟨l.kind, l.hashes.take HashList.maxCount⟩ :=
      HashList.decodeRequest_eq_ok_iff.mpr ⟨l.hashes, hacc, rfl, rfl⟩
    change getData <$> HashList.decodeRequest l.encode = _
    rw [hread]
    rfl
  | getBlockData range =>
    exact map_decodeAll_encode BlockRange.decoder_inverts getBlockData trivial trivial
  | notFound l => exact map_decodeAll_encode HashList.decoder_inverts notFound trivial hacc
  | transaction tx =>
    exact map_decodeAll_encode Transaction.decoder_inverts transaction trivial hacc
  | block b => exact map_decodeAll_encode Block.decoder_inverts block trivial hacc
  | consensus c => exact map_decodeAll_encode Consensus.decoder_inverts consensus trivial hacc
  | filterLoad f => exact map_decodeAll_encode FilterLoad.decoder_inverts filterLoad trivial hacc
  | filterAdd f => exact map_decodeAll_encode FilterAdd.decoder_inverts filterAdd trivial hacc
  | merkleBlock b => exact map_decodeAll_encode MerkleBlock.decoder_inverts merkleBlock trivial hacc
  | verack | getAddr | mempool | filterClear => exact ofEmpty_eq_ok_iff.mpr ⟨rfl, rfl⟩
  | reject bytes | alert bytes => rfl

/-- Whatever is read was written of an accepted message. -/
lemma exists_of_decodePayload {c : Command} {bs : Bytes} {m : Message}
    (h : decodePayload c bs = .ok m) :
    ∃ w : Message, w.command = c ∧ w.Normal ∧ w.Accepted ∧ bs = w.encodePayload ∧ m = w.served := by
  cases c with
  | version =>
    obtain ⟨v, rfl, -, hfits, rfl⟩ := exists_of_map_decodeAll Version.decoder_inverts h
    exact ⟨version v, rfl, trivial, hfits, rfl, rfl⟩
  | disconnect =>
    obtain ⟨d, rfl, -, hfits, rfl⟩ := exists_of_map_decodeAll Disconnect.decoder_inverts h
    exact ⟨disconnect d, rfl, trivial, hfits, rfl, rfl⟩
  | addr =>
    obtain ⟨records, rfl, hnormal, hfits, rfl⟩ :=
      exists_of_map_decodeAll AddressRecord.nonemptyListDecoder_inverts h
    exact ⟨addr records, rfl, hnormal, hfits, rfl, rfl⟩
  | ping =>
    obtain ⟨p, rfl, -, -, rfl⟩ := exists_of_map_decodeAll Ping.decoder_inverts h
    exact ⟨ping p, rfl, trivial, trivial, rfl, rfl⟩
  | pong =>
    obtain ⟨p, rfl, -, -, rfl⟩ := exists_of_map_decodeAll Ping.decoder_inverts h
    exact ⟨pong p, rfl, trivial, trivial, rfl, rfl⟩
  | getHeaders =>
    obtain ⟨walk, rfl, -, -, rfl⟩ := exists_of_map_decodeAll ChainWalk.decoder_inverts h
    exact ⟨getHeaders walk, rfl, trivial, trivial, rfl, rfl⟩
  | headers =>
    obtain ⟨hs, rfl, -, hfits, rfl⟩ := exists_of_map_decodeAll Header.listDecoder_inverts h
    exact ⟨headers hs, rfl, trivial, hfits, rfl, rfl⟩
  | getBlocks =>
    obtain ⟨walk, rfl, -, -, rfl⟩ := exists_of_map_decodeAll ChainWalk.decoder_inverts h
    exact ⟨getBlocks walk, rfl, trivial, trivial, rfl, rfl⟩
  | inv =>
    obtain ⟨l, rfl, -, hfits, rfl⟩ := exists_of_map_decodeAll HashList.decoder_inverts h
    exact ⟨inv l, rfl, trivial, hfits, rfl, rfl⟩
  | getData =>
    -- The request that was sent may be longer than the one that is kept.
    cases hread : HashList.decodeRequest bs with
    | error e => simp [decodePayload, hread, Functor.map, Except.map] at h
    | ok l =>
      obtain rfl : getData l = m := by simpa [decodePayload, hread, Functor.map, Except.map] using h
      obtain ⟨hs, hlen, rfl, hkept⟩ := HashList.decodeRequest_eq_ok_iff.mp hread
      refine ⟨getData ⟨l.kind, hs⟩, rfl, trivial, hlen, rfl, ?_⟩
      rw [served, ← hkept]
  | getBlockData =>
    obtain ⟨range, rfl, -, -, rfl⟩ := exists_of_map_decodeAll BlockRange.decoder_inverts h
    exact ⟨getBlockData range, rfl, trivial, trivial, rfl, rfl⟩
  | notFound =>
    obtain ⟨l, rfl, -, hfits, rfl⟩ := exists_of_map_decodeAll HashList.decoder_inverts h
    exact ⟨notFound l, rfl, trivial, hfits, rfl, rfl⟩
  | transaction =>
    obtain ⟨tx, rfl, -, hfits, rfl⟩ := exists_of_map_decodeAll Transaction.decoder_inverts h
    exact ⟨transaction tx, rfl, trivial, hfits, rfl, rfl⟩
  | block =>
    obtain ⟨b, rfl, -, hfits, rfl⟩ := exists_of_map_decodeAll Block.decoder_inverts h
    exact ⟨block b, rfl, trivial, hfits, rfl, rfl⟩
  | consensus =>
    obtain ⟨c, rfl, -, hfits, rfl⟩ := exists_of_map_decodeAll Consensus.decoder_inverts h
    exact ⟨consensus c, rfl, trivial, hfits, rfl, rfl⟩
  | filterLoad =>
    obtain ⟨f, rfl, -, hfits, rfl⟩ := exists_of_map_decodeAll FilterLoad.decoder_inverts h
    exact ⟨filterLoad f, rfl, trivial, hfits, rfl, rfl⟩
  | filterAdd =>
    obtain ⟨f, rfl, -, hfits, rfl⟩ := exists_of_map_decodeAll FilterAdd.decoder_inverts h
    exact ⟨filterAdd f, rfl, trivial, hfits, rfl, rfl⟩
  | merkleBlock =>
    obtain ⟨b, rfl, -, hfits, rfl⟩ := exists_of_map_decodeAll MerkleBlock.decoder_inverts h
    exact ⟨merkleBlock b, rfl, trivial, hfits, rfl, rfl⟩
  | verack =>
    obtain ⟨rfl, rfl⟩ := ofEmpty_eq_ok_iff.mp h
    exact ⟨verack, rfl, trivial, trivial, rfl, rfl⟩
  | getAddr =>
    obtain ⟨rfl, rfl⟩ := ofEmpty_eq_ok_iff.mp h
    exact ⟨getAddr, rfl, trivial, trivial, rfl, rfl⟩
  | mempool =>
    obtain ⟨rfl, rfl⟩ := ofEmpty_eq_ok_iff.mp h
    exact ⟨mempool, rfl, trivial, trivial, rfl, rfl⟩
  | filterClear =>
    obtain ⟨rfl, rfl⟩ := ofEmpty_eq_ok_iff.mp h
    exact ⟨filterClear, rfl, trivial, trivial, rfl, rfl⟩
  | reject =>
    obtain rfl : reject bs = m := by simpa [decodePayload] using h
    exact ⟨reject bs, rfl, trivial, trivial, rfl, rfl⟩
  | alert =>
    obtain rfl : alert bs = m := by simpa [decodePayload] using h
    exact ⟨alert bs, rfl, trivial, trivial, rfl, rfl⟩

/-- What was written of a message that is not accepted is refused.  A request is left out: it is
refused for its size, if at all. -/
lemma decodePayload_eq_error {m : Message} (hnormal : m.Normal) (hfits : ¬ m.Fits)
    (hrequest : m.command ≠ .getData) :
    ∃ e, decodePayload m.command m.encodePayload = .error e := by
  cases m with
  | version v => exact map_decodeAll_eq_error Version.decoder_inverts version trivial hfits
  | disconnect d =>
    exact map_decodeAll_eq_error Disconnect.decoder_inverts disconnect trivial hfits
  | addr records =>
    exact map_decodeAll_eq_error AddressRecord.nonemptyListDecoder_inverts addr hnormal hfits
  | headers hs => exact map_decodeAll_eq_error Header.listDecoder_inverts headers trivial hfits
  | inv l => exact map_decodeAll_eq_error HashList.decoder_inverts inv trivial hfits
  | getData l => exact absurd rfl hrequest
  | notFound l => exact map_decodeAll_eq_error HashList.decoder_inverts notFound trivial hfits
  | transaction tx =>
    exact map_decodeAll_eq_error Transaction.decoder_inverts transaction trivial hfits
  | block b => exact map_decodeAll_eq_error Block.decoder_inverts block trivial hfits
  | consensus c => exact map_decodeAll_eq_error Consensus.decoder_inverts consensus trivial hfits
  | filterLoad f => exact map_decodeAll_eq_error FilterLoad.decoder_inverts filterLoad trivial hfits
  | filterAdd f => exact map_decodeAll_eq_error FilterAdd.decoder_inverts filterAdd trivial hfits
  | merkleBlock b =>
    exact map_decodeAll_eq_error MerkleBlock.decoder_inverts merkleBlock trivial hfits
  | verack | getAddr | ping _ | pong _ | getHeaders _ | getBlocks _ | mempool | getBlockData _
  | reject _ | filterClear | alert _ => exact absurd trivial hfits

end Message

end PeerNet
