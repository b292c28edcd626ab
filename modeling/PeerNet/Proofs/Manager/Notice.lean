import PeerNet.Manager.Basic
import PeerNet.Proofs.Handler.Step
import PeerNet.Proofs.Message.Addresses
import PeerNet.Proofs.Message.Bounds

/-!
# Notices to rejected streams, from end to end

A notice carries as many of the suggested nodes as fit into its data, from the front of the list
(`Manager.Fitting`).  A record takes between 21 and 181 bytes, so five records always fit, and never
more than a receiver takes from a list.  So the notice arrives as it was sent, and whoever receives
it suggests those of the nodes that can be reached, and stops.
-/

namespace PeerNet

open AddressRecord (encodeList)

/-- Whether a record names a port, other than zero, where the node accepts TCP connections. -/
def AddressRecord.isReachable (r : AddressRecord) : Bool :=
  (Capability.listenerTcpPort r.capabilities).any (· != 0)

/-- A record can be dialed just if its endpoint has a port. -/
lemma AddressRecord.isReachable_eq (r : AddressRecord) :
    r.isReachable = decide (0 < r.endpoint.port) := by
  rw [isReachable, endpoint]
  cases Capability.listenerTcpPort r.capabilities with
  | none => rfl
  | some port =>
    rw [Option.any_some, Option.getD_some, Bool.eq_iff_iff, bne_iff_ne, decide_eq_true_eq,
      UInt16.pos_iff_ne_zero]

/-- A list that arrives is the list that was sent. -/
lemma AddressRecord.decodeList_encodeList {records : List AddressRecord}
    (hnormal : ∀ r ∈ records, r.Normal) (hcount : records.length ≤ maxCount)
    (hfits : ∀ r ∈ records, r.Fits) : decodeList (encodeList records) = .ok records :=
  decodeList_eq_ok_iff.mpr ⟨hnormal, ⟨hcount, hfits⟩, rfl⟩

namespace Manager

/-! ## What fits -/

/-- The longest part from the front of a list that fits into the data of a notice. -/
structure Fitting (records kept : List AddressRecord) : Prop where
  front : kept <+: records
  fits : (encodeList kept).length ≤ Disconnect.maxDataSize
  longest : ∀ p, p <+: records → (encodeList p).length ≤ Disconnect.maxDataSize → p <+: kept

/-- What is taken of a list of records is the longest part from its front that fits. -/
lemma fitting_spec (records : List AddressRecord) : Fitting records (fitting records) := by
  induction records using fitting.induct with
  | case1 records hfits =>
    rw [fitting, if_pos hfits]
    exact ⟨List.prefix_rfl, hfits, fun p hp _ => hp⟩
  | case2 hlong => exact absurd (by decide) hlong
  | case3 records hlong hnonempty ih =>
    rw [fitting, if_neg hlong, if_neg hnonempty]
    refine ⟨ih.front.trans (List.dropLast_prefix records), ih.fits, fun p hp hfits => ?_⟩
    -- What fits is not the whole list, so it is part of what is left of it.
    have hproper : p.length < records.length := by
      refine lt_of_le_of_ne hp.length_le fun heq => hlong ?_
      rwa [← hp.eq_of_length heq]
    refine ih.longest p (List.prefix_of_prefix_length_le hp (List.dropLast_prefix records) ?_) hfits
    rw [List.length_dropLast]
    omega

variable {records kept : List AddressRecord}

/-- What fits is short enough for a list. -/
lemma Fitting.length_le (h : Fitting records kept) : kept.length ≤ AddressRecord.maxCount := by
  have hfits : (encodeList kept).length ≤ 1024 := h.fits
  have hitems : kept.length * 21 ≤ (kept.flatMap AddressRecord.encode).length :=
    le_length_flatMap fun r _ => r.le_length_encode
  rw [encodeList, length_encodeSizedList_eq] at hfits
  have hmax : AddressRecord.maxCount = 200 := rfl
  omega

/-- Five records fit, whatever they are. -/
lemma Fitting.min_le_length (h : Fitting records kept) (hfits : ∀ r ∈ records, r.Fits) :
    min records.length 5 ≤ kept.length := by
  have hfive : (encodeList (records.take 5)).length ≤ Disconnect.maxDataSize := by
    have hcount : (records.take 5).length ≤ 5 := List.length_take_le 5 records
    have hitems : ((records.take 5).flatMap AddressRecord.encode).length ≤
        (records.take 5).length * 181 :=
      length_flatMap_le fun r hr =>
        AddressRecord.length_encode_le (hfits r (List.mem_of_mem_take hr))
    have hmax : Disconnect.maxDataSize = 1024 := rfl
    rw [encodeList, length_encodeSizedList_eq, CompactSize.encodedSize_of_le (by omega)]
    omega
  have hfront := (h.longest _ (List.take_prefix 5 records) hfive).length_le
  rwa [List.length_take, min_comm] at hfront

/-! ## What is made of a notice -/

/-- The texts of all reasons fit into a notice. -/
lemma utf8ByteSize_text_le (reason : DisconnectReason) :
    reason.text.utf8ByteSize ≤ Disconnect.maxMessageSize := by
  cases reason <;> decide +kernel

/-- There always is a notice: its text is short, and its data is cut to size. -/
lemma rejectionNotice_eq (reason : DisconnectReason) (records : List AddressRecord) :
    rejectionNotice reason records =
      some ⟨reason, reason.text, encodeList (fitting records)⟩ := by
  rw [rejectionNotice, Disconnect.create, if_neg (Nat.not_lt.mpr (fitting_spec records).fits),
    if_neg (Nat.not_lt.mpr (utf8ByteSize_text_le reason))]
  rfl

end Manager

namespace Handler

variable {h : Handler}

/-- A farewell is taken up in every state but the last. -/
lemma handle_disconnect (hlive : h.state ≠ .stopped) (ledger : Ledger) (moment : Moment)
    (d : Disconnect) :
    h.handle ledger moment (.message (.disconnect d)) = .done (h.onDisconnect d) := by
  have hgate : gate h.state (Message.disconnect d).command = .disconnect :=
    gate_eq_disconnect_iff.mpr ⟨hlive, rfl⟩
  change h.handleMessage ledger moment (.disconnect d) = _
  unfold handleMessage
  rw [hgate]

/-- A farewell with nodes to try suggests those that can be reached. -/
lemma onDisconnect_of_decodeList (h : Handler) {d : Disconnect} {records : List AddressRecord}
    (hreason : d.reason.carriesAddresses = true)
    (hdata : AddressRecord.decodeList d.data = .ok records) :
    h.onDisconnect d = ⟨h.stop, (match records.filter AddressRecord.isReachable with
      | [] => []
      | reachable => [.peers reachable]) ++ [.stop], []⟩ := by
  rw [onDisconnect, if_pos hreason, hdata]
  dsimp only [suggestPeers]
  rw [show AddressRecord.isReachable = fun r => decide (0 < r.endpoint.port) from
    funext AddressRecord.isReachable_eq]
  rfl

/-- Any other farewell suggests nothing. -/
lemma onDisconnect_of_not_decodeList (h : Handler) {d : Disconnect}
    (hd : d.reason.carriesAddresses = false ∨
      ∃ e, AddressRecord.decodeList d.data = .error e) :
    h.onDisconnect d = ⟨h.stop, [.stop], []⟩ := by
  rw [onDisconnect]
  rcases hd with hreason | ⟨e, hdata⟩
  · rw [if_neg (Bool.eq_false_iff.mp hreason)]
    rfl
  · rw [hdata, ite_self]
    rfl

end Handler

namespace Manager

/-- For a reason that carries nodes to try there is a notice, and it carries the longest part from
the front of the list that fits: at least five records, or all there are.  It is read as it was
written; whoever takes it up, in whatever state but the last, suggests those of these nodes whose
first TCP server has a port other than zero, in order, unless there are none, and stops.  A notice
for any other reason, or with data that is no list of nodes, makes its receiver stop and nothing
else. -/
theorem rejectionNotice_arrives (reason : DisconnectReason)
    (hreason : reason.carriesAddresses = true) (records : List AddressRecord)
    (hrecords : ∀ r ∈ records, r.Normal ∧ r.capabilities.length ≤ 32) :
    (∃ kept : List AddressRecord,
      let notice : Disconnect := ⟨reason, reason.text, encodeList kept⟩
      rejectionNotice reason records = some notice ∧
      Fitting records kept ∧ min records.length 5 ≤ kept.length ∧
      ∃ m, Message.decode (Message.disconnect notice).encode = .ok m ∧
        ∀ (h : Handler) (ledger : Ledger) (moment : Moment), h.state ≠ .stopped →
          h.handle ledger moment (.message m) =
            .done ⟨h.stop, (match kept.filter AddressRecord.isReachable with
              | [] => []
              | reachable => [.peers reachable]) ++ [.stop], []⟩) ∧
    ∀ (d : Disconnect), (d.reason.carriesAddresses = false ∨
        ∃ e, AddressRecord.decodeList d.data = .error e) →
      ∀ (h : Handler) (ledger : Ledger) (moment : Moment), h.state ≠ .stopped →
        h.handle ledger moment (.message (.disconnect d)) = .done ⟨h.stop, [.stop], []⟩ := by
  have hfitting := fitting_spec records
  have hfits : ∀ r ∈ records, r.Fits := fun r hr => (hrecords r hr).2
  refine ⟨⟨fitting records, rejectionNotice_eq reason records, hfitting,
    hfitting.min_le_length hfits,
    .disconnect ⟨reason, reason.text, encodeList (fitting records)⟩, ?_,
    fun h ledger moment hlive => ?_⟩, ?_⟩
  · refine Message.decode_encode trivial (Message.withinLimits_of_fits rfl ?_)
    exact ⟨utf8ByteSize_text_le reason, hfitting.fits⟩
  · rw [Handler.handle_disconnect hlive]
    have hkept := hfitting.front.subset
    have hdata : AddressRecord.decodeList (encodeList (fitting records)) = .ok (fitting records) :=
      AddressRecord.decodeList_encodeList (fun r hr => (hrecords r (hkept hr)).1) hfitting.length_le
        fun r hr => hfits r (hkept hr)
    rw [Handler.onDisconnect_of_decodeList h hreason hdata]
  · intro d hd h ledger moment hlive
    rw [Handler.handle_disconnect hlive, Handler.onDisconnect_of_not_decodeList h hd]

/-- Of two nodes that fit into a notice, one of them with port zero, the other is suggested. -/
theorem rejectionNotice_arrives_with_two_records :
    ∃ (a b : AddressRecord) (notice : Disconnect) (m : Message),
      rejectionNotice .maxConnectionReached [a, b] = some notice ∧
      notice.data = encodeList [a, b] ∧ Message.decode (Message.disconnect notice).encode = .ok m ∧
      ∀ (h : Handler) (ledger : Ledger) (moment : Moment), h.state = .awaitingVersion →
        h.handle ledger moment (.message m) = .done ⟨h.stop, [.peers [a], .stop], []⟩ := by
  let a : AddressRecord := .ofIp default 0 [.wsServer 1, .tcpServer 10333]
  let b : AddressRecord := .ofIp default 0 [.tcpServer 0, .tcpServer 10333]
  have hnormal : ∀ capabilities, (AddressRecord.ofIp default 0 capabilities).Normal :=
    fun _ => Ip.normal_normal default
  have hrecords : ∀ r ∈ [a, b], r.Normal ∧ r.capabilities.length ≤ 32 :=
    List.forall_mem_cons.mpr ⟨⟨hnormal _, by decide⟩,
      List.forall_mem_singleton.mpr ⟨hnormal _, by decide⟩⟩
  obtain ⟨⟨kept, hnotice, hfitting, hlength, m, hread, hhandled⟩, -⟩ :=
    rejectionNotice_arrives .maxConnectionReached rfl [a, b] hrecords
  obtain rfl : kept = [a, b] := hfitting.front.eq_of_length_le hlength
  refine ⟨a, b, _, m, hnotice, rfl, hread, fun h ledger moment hstate => ?_⟩
  refine hhandled h ledger moment ?_
  rw [hstate]
  exact HandshakeState.noConfusion

end Manager

end PeerNet
