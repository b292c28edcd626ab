import PeerNet.Message.Size
import PeerNet.Proofs.Codec.Sized

/-!
# Reported sizes are the sizes written

An encoder adds up what its parts report and never looks at the bytes.  Here the two are shown to
agree: for a byte string or a text behind its length, for a list by induction on its items, and
from there for every payload and for a whole message.
-/

namespace PeerNet

/-! ## Fields with a length of their own -/

/-- A byte string behind its length takes what its encoder reports. -/
lemma length_encodeSizedBytes (bs : Bytes) : (encodeSizedBytes bs).length = sizedBytesSize bs := by
  rw [encodeSizedBytes, List.length_append, CompactSize.length_encode, sizedBytesSize]

/-- A text behind its length takes what its encoder reports. -/
lemma length_encodeSizedText (text : String) :
    (encodeSizedText text).length = sizedTextSize text :=
  length_encodeSizedBytes (utf8Bytes text)

section Lists

variable {α : Type} {enc : α → Bytes} {itemSize : α → Nat}

/-- The running sum of the item sizes is what the items take behind what was counted before. -/
lemma foldl_itemSize (h : ∀ a, (enc a).length = itemSize a) (xs : List α) (size : Nat) :
    xs.foldl (fun size x => size + itemSize x) size = size + (xs.flatMap enc).length := by
  induction xs generalizing size with
  | nil => rfl
  | cons x xs ih =>
    rw [List.foldl_cons, ih, List.flatMap_cons, List.length_append, h, Nat.add_assoc]

/-- A list behind its count takes what its encoder reports, if every item does. -/
lemma length_encodeSizedList (h : ∀ a, (enc a).length = itemSize a) (xs : List α) :
    (encodeSizedList enc xs).length = sizedListSize itemSize xs := by
  rw [encodeSizedList, List.length_append, CompactSize.length_encode, sizedListSize,
    foldl_itemSize h]

end Lists

/-! ## Payloads -/

/-- A capability takes what its encoder reports. -/
lemma Capability.length_encode (c : Capability) : c.encode.length = c.encodedSize := by
  cases c <;> simp [encode, encodedSize]

lemma Capability.length_encodeList (cs : List Capability) :
    (encodeList cs).length = sizedListSize encodedSize cs :=
  length_encodeSizedList length_encode cs

/-- The size of a version is that of its written form. -/
lemma Version.length_encode (v : Version) : v.encode.length = v.encodedSize := by
  simp only [encode, encodedSize, List.length_append, length_toLE, length_encodeSizedText,
    Capability.length_encodeList]

lemma AddressRecord.length_encode (r : AddressRecord) : r.encode.length = r.encodedSize := by
  simp only [encode, encodedSize, List.length_append, length_toLE, FixedBytes.length_toList,
    Capability.length_encodeList]

lemma ChainWalk.length_encode (w : ChainWalk) : w.encode.length = w.encodedSize := by
  simp only [encode, encodedSize, List.length_append, length_toLE, FixedBytes.length_toList]

lemma HashList.length_encode (l : HashList) : l.encode.length = l.encodedSize := by
  rw [encode, List.length_cons, length_encodeSizedList FixedBytes.length_toList, encodedSize,
    InventoryKind.encodedSize, Nat.add_comm]

/-- The size of a header is that of its written form. -/
lemma Header.length_encode (h : Header) : h.encode.length = h.encodedSize := by
  simp only [encode, encodeUnsigned, encodedSize, List.length_append, List.length_cons, length_toLE,
    FixedBytes.length_toList, length_encodeSizedBytes]

/-- The size of a block is that of its written form. -/
lemma Block.length_encode (b : Block) : b.encode.length = b.encodedSize := by
  have htx : ∀ tx : Transaction, tx.encode.length = tx.size :=
    fun tx => length_encodeSizedBytes tx.data
  rw [encode, List.length_append, Header.length_encode, length_encodeSizedList htx, encodedSize]

/-- The size of a merkle block is that of its written form. -/
lemma MerkleBlock.length_encode (m : MerkleBlock) : m.encode.length = m.encodedSize := by
  simp only [encode, encodedSize, List.length_append, Header.length_encode,
    CompactSize.length_encode, length_encodeSizedList FixedBytes.length_toList,
    length_encodeSizedBytes]

lemma FilterLoad.length_encode (f : FilterLoad) : f.encode.length = f.encodedSize := by
  simp only [encode, encodedSize, List.length_append, List.length_cons, length_toLE,
    length_encodeSizedBytes]

/-- The size of a notice is that of its written form. -/
lemma Disconnect.length_encode (d : Disconnect) : d.encode.length = d.encodedSize := by
  simp only [encode, encodedSize, List.length_append, List.length_cons, length_encodeSizedText,
    length_encodeSizedBytes]
  omega

/-! ## Messages -/

namespace Message

/-- Every payload takes what its encoder reports. -/
lemma length_encodePayload (m : Message) : m.encodePayload.length = m.payloadSize := by
  cases m with
  | version v => exact v.length_encode
  | disconnect d => exact d.length_encode
  | addr records => exact length_encodeSizedList AddressRecord.length_encode records
  | ping p | pong p =>
    simp only [encodePayload, payloadSize, Ping.encode, Ping.encodedSize, List.length_append,
      length_toLE]
  | getHeaders walk | getBlocks walk => exact walk.length_encode
  | headers hs => exact length_encodeSizedList Header.length_encode hs
  | inv l | getData l | notFound l => exact l.length_encode
  | getBlockData range =>
    simp only [encodePayload, payloadSize, BlockRange.encode, BlockRange.encodedSize,
      List.length_append, length_toLE]
  | transaction tx => exact length_encodeSizedBytes tx.data
  | block b => exact b.length_encode
  | consensus c => exact length_encodeSizedBytes c.data
  | filterLoad f => exact f.length_encode
  | filterAdd f => exact length_encodeSizedBytes f.data
  | merkleBlock m => exact m.length_encode
  | reject bytes | alert bytes => rfl
  | verack | getAddr | mempool | filterClear => rfl

/-- A message takes what its encoder reports. -/
lemma length_encode (m : Message) : m.encode.length = m.encodedSize := by
  rw [encode, List.length_cons, List.length_cons, length_encodeSizedBytes, encodedSize]
  omega

end Message

end PeerNet
