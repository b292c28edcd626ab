import PeerNet.Proofs.Handler.Grammar
import PeerNet.Proofs.Handler.Produces
import PeerNet.Proofs.Message.Bounds

/-!
# What a handler sends is read back

Whatever a handler sends keeps the caps of the receiver, and so it is read as it was written
(`Message.ReadsBack`).  Some of it the handler keeps within the caps itself: a walk along the chain
stops in time, the pool is cut into lists, and a block that is reduced has no more flags than
transactions.  The rest comes from the ledger as it is, and there it is the ledger that has to keep
them (`Ledger.WithinLimits`).
-/

namespace PeerNet

/-- A message that is read from its own written form as itself. -/
def Message.ReadsBack (m : Message) : Prop := Message.decode m.encode = .ok m

namespace Message

variable {m : Message}

/-- A message within the limits whose addresses are in normal form is read back as itself. -/
lemma WithinLimits.readsBack (hlimits : m.WithinLimits) (hnormal : m.Normal) : m.ReadsBack :=
  decode_encode hnormal hlimits

/-- What carries no body of its own and no addresses is read back if it keeps its caps. -/
lemma readsBack_of_fits (hbounded : m.isBounded = true) (hnormal : m.Normal) (hfits : m.Fits) :
    m.ReadsBack :=
  (withinLimits_of_fits hbounded hfits).readsBack hnormal

end Message

/-- A ledger that has nothing a receiver would refuse. -/
structure Ledger.WithinLimits (l : Ledger) : Prop where
  block : ∀ hash b, l.block hash = some b → (Message.block b).WithinLimits
  blockAt : ∀ i b, l.blockAt i = some b → (Message.block b).WithinLimits
  header : ∀ hash h, l.header hash = some h → h.Fits
  transaction : ∀ hash tx, l.transaction hash = some tx → (Message.transaction tx).WithinLimits
  consensus : ∀ hash c, l.consensus hash = some c → (Message.consensus c).WithinLimits

/-! ## Blocks that are reduced -/

/-- Eight flags go into a byte. -/
lemma MerkleBlock.length_packFlags (marks : List Bool) :
    (packFlags marks).length = (marks.length + 7) / 8 := by
  induction marks using packFlags.induct with
  | case1 => rw [packFlags, List.length_nil, List.length_nil]
  | case2 m rest ih =>
    rw [packFlags, List.length_cons, ih, List.length_drop, List.length_cons]
    omega

/-- A block that keeps its caps still keeps them when it is reduced. -/
lemma BloomFilter.fits_reduce (f : BloomFilter) {b : Block} (h : b.Fits) : (f.reduce b).Fits := by
  obtain ⟨hheader, hcount, -⟩ := h
  refine ⟨hheader, ?_, ?_, ?_⟩
  · change (UInt32.ofNat b.transactions.length).toNat ≤ _
    rw [UInt32.toNat_ofNat']
    exact (Nat.mod_le _ _).trans hcount
  · change (b.transactions.map Transaction.hash).length ≤ _
    rwa [List.length_map]
  · change (MerkleBlock.packFlags (b.transactions.map f.accepts)).length ≤ _
    rw [MerkleBlock.length_packFlags, List.length_map]
    exact Nat.div_le_div_right (Nat.add_le_add_right hcount 7)

/-! ## The pool, in lists -/

namespace HashList

variable {kind : InventoryKind}

/-- The lists have a kind and some hashes, no more than a receiver takes. -/
lemma of_mem_grouped {hashes : List Hash} {l : HashList} (hl : l ∈ grouped kind hashes) :
    l.kind = kind ∧ l.hashes ≠ [] ∧ l.Fits := by
  induction hashes using grouped.induct with
  | case1 =>
    rw [grouped] at hl
    exact absurd hl List.not_mem_nil
  | case2 h rest ih =>
    rw [grouped] at hl
    rcases List.mem_cons.mp hl with rfl | hrest
    · exact ⟨rfl, List.cons_ne_nil _ _, List.length_take_le _ _⟩
    · exact ih hrest

/-- Together the lists have all the hashes, in order. -/
lemma flatMap_grouped (kind : InventoryKind) (hashes : List Hash) :
    (grouped kind hashes).flatMap HashList.hashes = hashes := by
  induction hashes using grouped.induct with
  | case1 =>
    rw [grouped]
    rfl
  | case2 h rest ih =>
    rw [grouped, List.flatMap_cons, ih]
    exact List.take_append_drop _ _

end HashList

namespace Handler

variable {h : Handler} {ledger : Ledger} {moment : Moment}

/-! ## One message -/

/-- A block of the ledger is read back, whole or reduced. -/
lemma readsBack_blockMessage (h : Handler) {b : Block} (hb : (Message.block b).WithinLimits) :
    (h.blockMessage b).ReadsBack := by
  rw [blockMessage]
  split
  · exact hb.readsBack trivial
  · next f _ => exact Message.readsBack_of_fits rfl trivial (f.fits_reduce hb.2)

/-- Every object of the ledger is read back in the message that serves it. -/
lemma readsBack_objectMessage (hledger : ledger.WithinLimits) {kind : InventoryKind} {hash : Hash}
    {m : Message} (hm : h.objectMessage ledger kind hash = some m) : m.ReadsBack := by
  cases kind with
  | transaction =>
    obtain ⟨tx, htx, rfl⟩ := Option.map_eq_some_iff.mp hm
    exact (hledger.transaction hash tx htx).readsBack trivial
  | block =>
    obtain ⟨b, hb, rfl⟩ := Option.map_eq_some_iff.mp hm
    exact h.readsBack_blockMessage (hledger.block hash b hb)
  | consensus =>
    obtain ⟨c, hc, rfl⟩ := Option.map_eq_some_iff.mp hm
    exact (hledger.consensus hash c hc).readsBack trivial

/-- All that work on a message sends is read back, if the ledger keeps a receiver's caps. -/
lemma Produces.readsBack (hledger : ledger.WithinLimits) {m sent : Message}
    (hsent : h.Produces ledger moment m (.send sent)) : sent.ReadsBack := by
  cases hsent with
  | hashes hcount => exact Message.readsBack_of_fits rfl trivial hcount
  | headers hcount hknown =>
    refine Message.readsBack_of_fits rfl trivial ⟨hcount, fun x hx => ?_⟩
    obtain ⟨hash, hfound⟩ := hknown x hx
    exact hledger.header hash x hfound
  | blockAt hb => exact h.readsBack_blockMessage (hledger.blockAt _ _ hb)
  | object hobject => exact readsBack_objectMessage hledger hobject
  | pool hl => exact Message.readsBack_of_fits rfl trivial (HashList.of_mem_grouped hl).2.2
  | pong nonce => exact Message.readsBack_of_fits rfl trivial trivial

/-- The announcement of one object is read back. -/
lemma readsBack_announcement (kind : InventoryKind) (hash : Hash) :
    (Message.inv ⟨kind, [hash]⟩).ReadsBack :=
  Message.readsBack_of_fits rfl trivial (show 1 ≤ HashList.maxCount by decide)

/-! ## Any item -/

/-- Whatever a handler sends, on whatever item, is read back. -/
lemma readsBack_handle (hledger : ledger.WithinLimits) (h : Handler) (moment : Moment)
    (i : MailboxItem) {sent : Message} (hsent : .send sent ∈ (h.handle ledger moment i).events) :
    sent.ReadsBack := by
  by_cases hready : h.state = .ready
  · cases i with
    | timer => exact absurd hsent List.not_mem_nil
    | message m =>
      change .send sent ∈ (h.handleMessage ledger moment m).events at hsent
      have hhandles := handles_handleMessage h ledger moment m
      generalize h.handleMessage ledger moment m = handled at hhandles hsent
      cases hhandles with
      | ignored | violated => exact absurd hsent List.not_mem_nil
      | parted d => exact absurd hsent ((farewell_onDisconnect h d).send_notMem sent)
      | introduced v hstate => exact HandshakeState.noConfusion (hready.symm.trans hstate)
      | acknowledged hstate => exact HandshakeState.noConfusion (hready.symm.trans hstate)
      | dispatched => exact (produces_dispatch h ledger moment _ _ hsent).readsBack hledger
  -- Before the handshake is complete, and after the end, nothing is sent at all.
  · exact absurd hsent (((h.obeys (.handle ledger moment i)).reserved hready).2.2 sent)

/-- The version that a handler has after an item was there before, or came with the item. -/
lemma version_handle (h : Handler) (ledger : Ledger) (moment : Moment) (i : MailboxItem)
    {v : Version} (hv : (h.handle ledger moment i).handler.version = some v) :
    h.version = some v ∨ i = .message (.version v) := by
  have hversion := (h.obeys (.handle ledger moment i)).version_eq
  have hv : (h.call (.handle ledger moment i)).1.version = some v := hv
  rw [hversion, Option.or_eq_some_iff] at hv
  rcases hv with hnew | ⟨-, hold⟩
  · refine .inr ?_
    unfold Call.accepted? at hnew
    split at hnew
    · next heq =>
      split at hnew
      · obtain ⟨-, -, rfl⟩ := Call.handle.inj heq
        rw [Option.some.inj hnew]
      · exact Option.noConfusion rfl (heq_of_eq hnew)
    · exact Option.noConfusion rfl (heq_of_eq hnew)
  · exact .inl hold

/-- A request for the pool is answered with lists of transactions, none of them empty and none too
long, that together are the pool. -/
lemma handle_mempool (hready : h.state = .ready) (ledger : Ledger) (moment : Moment) :
    ∃ ls : List HashList,
      h.handle ledger moment (.message .mempool) =
        .done ⟨h, ls.map fun l => .send (.inv l), []⟩ ∧
      (∀ l ∈ ls, l.kind = .transaction ∧ l.hashes ≠ [] ∧ l.hashes.length ≤ 500) ∧
      ls.flatMap HashList.hashes = ledger.mempool := by
  refine ⟨HashList.grouped .transaction ledger.mempool, ?_, fun l hl => HashList.of_mem_grouped hl,
    HashList.flatMap_grouped _ _⟩
  have hgate : gate h.state Message.mempool.command = .dispatch :=
    gate_eq_dispatch_iff.mpr ⟨hready, rfl⟩
  change h.handleMessage ledger moment .mempool = _
  unfold handleMessage
  rw [hgate]
  rfl

end Handler

end PeerNet
