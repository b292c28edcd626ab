import PeerNet.Proofs.Node.Sends
import PeerNet.Proofs.Peer.AddressBook

/-!
# Where a peer can be reached

The manager goes by the port at which a peer accepts connections when it decides whether to file the
peer and whether to suggest it to others.  But the address book and the receivers of suggestions go
by the endpoint of its record, which stops at the first TCP server of the list.  So a peer that
names port zero first, and a real port later, is taken for one that accepts connections, and nobody
learns where.  For every other peer all of them agree.
-/

namespace PeerNet

/-- The nodes that a handler has found worth trying. -/
def HandlerEvent.suggested : HandlerEvent → List AddressRecord
  | .peers records => records
  | .send _ | .versionReceived _ | .ready _ | .filterChanged _ | .addressRequest | .relay _
  | .remoteHeight _ | .stop => []

/-- A message by which nodes are suggested that accept connections: it is read back, and whoever
takes it up passes on those of them whose first TCP server has a port other than zero. -/
structure Message.Suggests (m : Message) (records : List AddressRecord) : Prop where
  listening : ∀ r ∈ records, ∃ p, Capability.listenerPort r.capabilities = some p
  readsBack : m.ReadsBack
  passedOn : ∀ (h : Handler) (ledger : Ledger) (moment : Moment),
    gate h.state m.command = .dispatch ∨ gate h.state m.command = .disconnect →
    (h.handle ledger moment (.message m)).events.flatMap HandlerEvent.suggested =
      records.filter (Capability.listenerTcpPort ·.capabilities ≠ some 0)

/-- A node that accepts connections can be reached unless it names port zero first. -/
lemma AddressRecord.isReachable_eq_of_listenerPort {r : AddressRecord} {p : UInt16}
    (h : Capability.listenerPort r.capabilities = some p) :
    r.isReachable = decide (Capability.listenerTcpPort r.capabilities ≠ some 0) := by
  rw [isReachable]
  by_cases hzero : Capability.listenerTcpPort r.capabilities = some 0
  · rw [hzero]
    rfl
  · obtain ⟨hfirst, hp⟩ := Capability.listenerTcpPort_eq_some_iff.mpr ⟨h, hzero⟩
    rw [decide_eq_true hzero, hfirst, Option.any_some, bne_iff_ne]
    exact UInt16.pos_iff_ne_zero.mp hp

namespace Handler

variable {records : List AddressRecord}

/-- Of the records that a peer names, those that can be dialed are suggested. -/
lemma flatMap_suggested_suggestPeers (records : List AddressRecord) :
    (suggestPeers records).flatMap HandlerEvent.suggested =
      records.filter AddressRecord.isReachable := by
  rw [suggestPeers, show AddressRecord.isReachable = fun r => decide (0 < r.endpoint.port) from
    funext AddressRecord.isReachable_eq]
  split
  · next hnone => exact hnone.symm
  · exact List.flatMap_singleton _ _

/-- Among records with a listener of some port, those can be dialed whose first listener is not at
port zero. -/
lemma filter_isReachable
    (hlistening : ∀ r ∈ records, ∃ p, Capability.listenerPort r.capabilities = some p) :
    records.filter AddressRecord.isReachable =
      records.filter (Capability.listenerTcpPort ·.capabilities ≠ some 0) := by
  refine List.filter_congr fun r hr => ?_
  obtain ⟨p, hp⟩ := hlistening r hr
  exact AddressRecord.isReachable_eq_of_listenerPort hp

/-- The answer to a request for addresses suggests its records. -/
lemma suggests_addr
    (hlistening : ∀ r ∈ records, ∃ p, Capability.listenerPort r.capabilities = some p)
    (hreads : (Message.addr records).ReadsBack) : (Message.addr records).Suggests records := by
  refine ⟨hlistening, hreads, fun h ledger moment hgate => ?_⟩
  have hready : gate h.state (Message.addr records).command = .dispatch := by
    refine hgate.resolve_right fun hfarewell => ?_
    exact Command.noConfusion (gate_eq_disconnect_iff.mp hfarewell).2
  have hhandle : h.handle ledger moment (.message (.addr records)) =
      .done (h.answering (suggestPeers records)) := by
    change h.handleMessage ledger moment (.addr records) = _
    unfold handleMessage
    rw [hready]
    rfl
  rw [hhandle, ← filter_isReachable hlistening]
  exact flatMap_suggested_suggestPeers records

/-- A notice to a rejected stream suggests the records in its data. -/
lemma suggests_disconnect {d : Disconnect}
    (hlistening : ∀ r ∈ records, ∃ p, Capability.listenerPort r.capabilities = some p)
    (hreads : (Message.disconnect d).ReadsBack) (hreason : d.reason.carriesAddresses = true)
    (hdata : AddressRecord.decodeList d.data = .ok records) :
    (Message.disconnect d).Suggests records := by
  refine ⟨hlistening, hreads, fun h ledger moment hgate => ?_⟩
  have hlive : h.state ≠ .stopped := by
    rintro hstopped
    rw [gate_eq_ignore_iff.mpr hstopped] at hgate
    exact hgate.elim nofun nofun
  rw [handle_disconnect hlive, ← filter_isReachable hlistening, onDisconnect, if_pos hreason, hdata]
  change (suggestPeers records ++ [HandlerEvent.stop]).flatMap HandlerEvent.suggested = _
  rw [List.flatMap_append, flatMap_suggested_suggestPeers]
  exact List.append_nil _

end Handler

namespace Manager

variable {m : Manager} {choices : Choices} {moment : Moment} {c : ManagerCommand}

/-- Nodes are suggested only if they accept connections. -/
lemma listening_of_mem_connectedPeers (hselects : choices.Selects) {count : Nat}
    {record : AddressRecord} (h : record ∈ m.connectedPeers choices count) :
    ∃ p, Capability.listenerPort record.capabilities = some p := by
  obtain ⟨q, -, hsuggestion⟩ := exists_ready_of_mem_connectedPeers hselects h
  obtain ⟨v, -, hlistener⟩ := Option.bind_eq_some_iff.mp hsuggestion
  obtain ⟨p, hp, rfl⟩ := Option.map_eq_some_iff.mp hlistener
  exact ⟨p, hp⟩

/-- A stream is turned away with a notice only if a cap is met. -/
lemma carriesAddresses_of_rejected (hconsistent : m.registry.Consistent) {d : Disconnect}
    (h : .rejected (some d) ∈ (m.step choices moment c).2) : d.reason.carriesAddresses = true := by
  cases hlive : m.isStopped with
  | true =>
    rw [step_of_stopped hlive] at h
    exact absurd h List.not_mem_nil
  | false =>
    rw [step_of_live hlive] at h
    rcases List.mem_append.mp h with h | h
    · cases c with
      | connect remote direction =>
        have hanswers := m.answers_connect choices remote direction
        rw [handle] at h
        generalize m.connect choices remote direction = r at h hanswers
        cases hanswers with
        | late | silent | accepted => cases List.mem_singleton.mp h
        | @notified d' _ hrefused =>
          obtain rfl := Option.some.inj (ManagerEffect.rejected.inj (List.mem_singleton.mp h))
          have hregistration := hconsistent.registration remote direction
            m.settings.maxConnections m.settings.maxConnectionsPerAddress
          rw [hrefused] at hregistration
          generalize d.reason = reason at hregistration
          cases hregistration <;> rfl
      | rejectionFinished => exact absurd h List.not_mem_nil
      | _ =>
        have hquiet := (m.handle_abstains choices moment (fun _ _ => ManagerCommand.noConfusion)
          ManagerCommand.noConfusion).quiet _ h
        exact absurd hquiet.2 (Option.some_ne_none d)
    · exact absurd ((stopIfDone_spec _).1.quiet _ h).2 (Option.some_ne_none d)

/-- A peer that may stay is filed under its port, unless it names port zero first. -/
lemma book_allow {peer : PeerId} {version : Version} {now : Nat} {entry : PeerEntry}
    {p : UInt16} (hallowed : (m.allow peer version now).2 = .ok ())
    (hlive : m.registry.get? peer = some entry) (hlistener : version.listenerPort = some p) :
    (m.allow peer version now).1.book =
      (m.book.add (.ofIp entry.remote.ip version.timestamp version.capabilities) now).1 := by
  unfold allow at hallowed ⊢
  split at hallowed
  · exact absurd hallowed nofun
  · next hmagic =>
    rw [if_neg hmagic]
    split at hallowed
    · exact absurd hallowed nofun
    · next hnonce =>
      rw [if_neg hnonce]
      simp only [hlive] at hallowed ⊢
      split at hallowed
      · exact absurd hallowed nofun
      · next hunique =>
        rw [if_neg hunique, hlistener]
        rfl

end Manager

namespace Assembly

variable {settings : Settings} {a : Assembly} {choices : Choices} {moment : Moment}
  {c : ManagerCommand}

/-- An answer to a request for addresses suggests what it holds, unless it holds nothing. -/
lemma Legible.suggests_answer (h : a.Legible) (hsound : a.Sound settings)
    (hsamples : choices.Samples) {peer : PeerId} {records : List AddressRecord}
    (hanswer : .answer peer (.addresses records) ∈ (a.manager.step choices moment c).2)
    (hsome : records ≠ []) : (Message.addr records).Suggests records := by
  cases a.manager.step_concerns choices moment c _ hanswer with
  | addresses =>
    refine Handler.suggests_addr (fun r hr => ?_) (h.readsBack_addr hsound hsamples hsome)
    exact Manager.listening_of_mem_connectedPeers hsamples.toSelects hr

/-- A notice to a stream that is turned away suggests the records in its data. -/
lemma Legible.suggests_notice (h : a.Legible) (hsound : a.Sound settings)
    (hsamples : choices.Samples) {d : Disconnect}
    (hrejected : .rejected (some d) ∈ (a.manager.step choices moment c).2) :
    ∃ records, AddressRecord.decodeList d.data = .ok records ∧
      (Message.disconnect d).Suggests records := by
  cases a.manager.step_concerns choices moment c _ hrejected with
  | notice hnotice =>
    let offered := a.manager.connectedPeers choices Manager.maxSuggestions
    have hkept : ∀ r ∈ Manager.fitting offered, r ∈ offered :=
      fun r hr => Manager.fitting_subset offered hr
    have hdata : AddressRecord.decodeList d.data = .ok (Manager.fitting offered) := by
      rw [Manager.data_of_rejectionNotice hnotice]
      refine AddressRecord.decodeList_encodeList (fun r hr => ?_)
        (Manager.fitting_spec offered).length_le fun r hr => ?_
      · exact (h.fits_of_mem_connectedPeers hsound hsamples.toSelects (hkept r hr)).1
      · exact (h.fits_of_mem_connectedPeers hsound hsamples.toSelects (hkept r hr)).2
    refine ⟨_, hdata, Handler.suggests_disconnect (fun r hr => ?_)
      (Manager.readsBack_of_rejectionNotice hnotice) ?_ hdata⟩
    · exact Manager.listening_of_mem_connectedPeers hsamples.toSelects (hkept r hr)
    · exact Manager.carriesAddresses_of_rejected hsound.discerning.consistent hrejected

/-- The record of an address leads to a real port exactly if that is the port at which the peer
accepts connections, and no TCP server with port zero comes before it.  So a peer that may stay, and
accepts connections, is in the address book afterwards, unless its address names no host, the book
is full, or it names port zero first; in the last case the book stays as it was.  And all nodes that
a running node suggests, in an answer or in a notice to a stream that it turns away, accept
connections, and whoever takes the message up passes on all but those that name port zero first. -/
theorem listener_reached_by_first_port (settings : Settings) (events : List Event)
    (hevents : ∀ event ∈ events, event.WithinLimits) :
    (∀ (cs : List Capability) (ip : Ip) (timestamp : UInt32) (p : UInt16),
      (AddressRecord.ofIp ip timestamp cs).endpoint = ⟨ip.normal, p⟩ ∧ 0 < p ↔
        Capability.listenerPort cs = some p ∧ Capability.listenerTcpPort cs ≠ some 0) ∧
    (∀ (m : Manager) (peer : PeerId) (version : Version) (now : Nat) (e : PeerEntry) (p : UInt16),
      (m.allow peer version now).2 = .ok () → m.registry.get? peer = some e →
      version.listenerPort = some p →
      let record := AddressRecord.ofIp e.remote.ip version.timestamp version.capabilities
      let listener : Endpoint := ⟨e.remote.ip.normal, p⟩
      let book := (m.allow peer version now).1.book
      (version.listenerTcpPort = some 0 → book = m.book) ∧
      (version.listenerTcpPort ≠ some 0 → e.remote.ip.normal.isUnspecified = false →
        m.book.size < m.book.maxSize ∨ listener ∈ m.book.endpoints →
        (listener, ⟨record, now⟩) ∈ book.entries)) ∧
    ∀ choices moment c, choices.Samples →
      let effects := ((after settings events).manager.step choices moment c).2
      (∀ peer records, .answer peer (.addresses records) ∈ effects → records ≠ [] →
        (Message.addr records).Suggests records) ∧
      (∀ d, .rejected (some d) ∈ effects → ∃ records,
        AddressRecord.decodeList d.data = .ok records ∧
          (Message.disconnect d).Suggests records) := by
  refine ⟨fun cs ip timestamp p => AddressRecord.endpoint_ofIp_eq_iff, ?_, ?_⟩
  · intro m peer version now e p hallowed hlive hlistener record listener book
    have hbook : book = (m.book.add record now).1 := Manager.book_allow hallowed hlive hlistener
    refine ⟨fun hzero => ?_, fun hreal hip hroom => ?_⟩
    · rw [hbook, AddressBook.add_of_port_eq_zero (AddressRecord.port_endpoint_of_zero hzero)]
    · obtain ⟨hendpoint, hp⟩ : record.endpoint = listener ∧ 0 < p :=
        AddressRecord.endpoint_ofIp_eq_iff.mpr ⟨hlistener, hreal⟩
      rw [hbook]
      exact AddressBook.mem_add (AddressBook.key?_ofIp hendpoint hp hip) hroom
  · intro choices moment c hsamples effects
    have hlegible := legible_after settings hevents
    have hsound := sound_after settings events
    exact ⟨fun peer records hanswer hsome =>
        hlegible.suggests_answer hsound hsamples hanswer hsome,
      fun d hrejected => hlegible.suggests_notice hsound hsamples hrejected⟩

/-- A peer connects from the address 10.0.0.1, introduces itself, and becomes ready. -/
def visit (ledger : Ledger) (version : Version) : List Event :=
  let remote : Endpoint := ⟨.v4 ⟨[10, 0, 0, 1], rfl⟩, 1⟩
  .command .first ledger ⟨0, 0⟩ (.connect remote .inbound) :: handshake ledger ⟨0, 0⟩ version

/-- A peer that accepts connections on one port is filed under it, and is suggested to another that
asks, and to one that is turned away. -/
theorem listener_reached_by_first_port_of_one_listener :
    ∃ (events : List Event) (record : AddressRecord) (d : Disconnect),
      let m := (after { Settings.standard (.ofMagic 7 1) with maxConnections := 1 } events).manager
      (∀ event ∈ events, event.WithinLimits) ∧ record.endpoint.port = 20333 ∧
      record.endpoint ∈ m.book.endpoints ∧
      (m.step .first ⟨0, 0⟩ (.notice ⟨2⟩ .addressRequest)).2 = [.answer ⟨2⟩ (.addresses [record])] ∧
      (Message.addr [record]).Suggests [record] ∧
      (m.step .first ⟨0, 0⟩ (.connect default .inbound)).2 = [.rejected (some d)] ∧
      (Message.disconnect d).Suggests [record] := by
  let settings : Settings := { Settings.standard (.ofMagic 7 1) with maxConnections := 1 }
  let ledger : Ledger :=
    { height := 0, blockHash := fun _ => none, blockIndex := fun _ => none
      containsBlock := fun _ => false, containsTransaction := fun _ => false
      block := fun _ => none, transaction := fun _ => none, consensus := fun _ => none
      mempool := [], mempoolCapacity := 16 }
  let version : Version :=
    Identity.version { Identity.ofMagic 7 2 with listenerPort := some 20333 } 0 0
  let remote : Endpoint := ⟨.v4 ⟨[10, 0, 0, 1], rfl⟩, 1⟩
  let record : AddressRecord := .ofIp remote.ip version.timestamp version.capabilities
  have hledger : ledger.WithinLimits := by
    constructor <;> exact fun _ _ hnone => Option.noConfusion rfl (heq_of_eq hnone)
  have hversion : ∃ bytes, Message.decode bytes = .ok (.version version) :=
    ⟨_, Identity.readsBack_version _ _ _⟩
  have hevents : ∀ event ∈ visit ledger version, event.WithinLimits :=
    List.forall_mem_cons.mpr
      ⟨Choices.samples_first, withinLimits_handshake hledger ⟨0, 0⟩ hversion⟩
  have hafter : after settings (visit ledger version) =
      (handshake ledger ⟨0, 0⟩ version).foldl advance
        (firstMet settings ledger 0 remote .inbound) := by
    rw [after, visit, List.foldl_cons, advance_connect (by decide) (by decide)]
  let m : Manager := (after settings (visit ledger version)).manager
  have hm : m = ((handshake ledger ⟨0, 0⟩ version).foldl advance
      (firstMet settings ledger 0 remote .inbound)).manager := congrArg manager hafter
  have hbook : m.book.endpoints = [⟨remote.ip, 20333⟩] := by
    rw [hm]
    rfl
  have hanswer : (m.step .first ⟨0, 0⟩ (.notice ⟨2⟩ .addressRequest)).2 =
      [.answer ⟨2⟩ (.addresses [record])] := by
    rw [hm]
    rfl
  let d : Disconnect := ⟨.maxConnectionReached, DisconnectReason.maxConnectionReached.text,
    AddressRecord.encodeList [record]⟩
  have hrejected : (m.step .first ⟨0, 0⟩ (.connect default .inbound)).2 =
      [.rejected (some d)] := by
    have hfitting : Manager.fitting [record] = [record] := by
      rw [Manager.fitting, if_pos (by decide +kernel)]
    have hnotice : Manager.rejectionNotice .maxConnectionReached
        (m.connectedPeers .first Manager.maxSuggestions) = some d := by
      have hoffered : m.connectedPeers .first Manager.maxSuggestions = [record] := by
        rw [hm]
        rfl
      rw [hoffered, Manager.rejectionNotice_eq, hfitting]
    have hrunning : m.isRunning = true := by
      rw [hm]
      rfl
    have hfull : m.registry.register default .inbound m.settings.maxConnections
        m.settings.maxConnectionsPerAddress = .error .maxConnectionReached := by
      rw [hm]
      rfl
    have hfree : ¬ m.pendingRejections ≥ m.settings.maxPendingRejections := by
      rw [hm]
      decide
    rw [Manager.step_connect_of_isRunning hrunning, Manager.connect_of_error hrunning hfull,
      Manager.reject, if_neg hfree, hnotice]
  obtain ⟨-, -, hsuggested⟩ :=
    listener_reached_by_first_port settings (visit ledger version) hevents
  obtain ⟨hanswers, -⟩ :=
    hsuggested .first ⟨0, 0⟩ (.notice ⟨2⟩ .addressRequest) Choices.samples_first
  obtain ⟨-, hnotices⟩ :=
    hsuggested .first ⟨0, 0⟩ (.connect default .inbound) Choices.samples_first
  obtain ⟨records, hdata, hsuggests⟩ :=
    hnotices d (hrejected.symm ▸ List.mem_singleton.mpr rfl)
  obtain rfl : records = [record] := by
    have hread : AddressRecord.decodeList d.data = .ok [record] := by decide +kernel
    exact Except.ok.inj (hdata.symm.trans hread)
  refine ⟨visit ledger version, record, d, hevents, rfl, ?_, hanswer, ?_, hrejected, hsuggests⟩
  · exact hbook.symm ▸ List.mem_singleton.mpr rfl
  · exact hanswers ⟨2⟩ [record] (hanswer.symm ▸ List.mem_singleton.mpr rfl) (List.cons_ne_nil _ _)

/-- A peer that names port zero first, and a real port later, may stay and is taken for one that
accepts connections. -/
theorem listener_lost_behind_port_zero :
    ∃ (ledger : Ledger) (version : Version) (record : AddressRecord),
      let a := after (.standard (.ofMagic 7 1)) (visit ledger version)
      version.listenerPort = some 20333 ∧ a.accepted = [(⟨1⟩, version)] ∧
      record.ip.isUnspecified = false ∧ record.capabilities = version.capabilities ∧
      record.endpoint.port = 0 ∧ a.manager.book.size < a.manager.book.maxSize ∧
      a.manager.book.endpoints = [] ∧
      (a.manager.step .first ⟨0, 0⟩ (.notice ⟨2⟩ .addressRequest)).2 =
        [.answer ⟨2⟩ (.addresses [record])] ∧
      Handler.suggestPeers [record] = [] := by
  let settings : Settings := .standard (.ofMagic 7 1)
  let ledger : Ledger := MemoryLedger.toLedger ⟨[], none, [], [], [], [], none, 16⟩
  let version : Version :=
    { Identity.version (.ofMagic 7 2) 0 0 with capabilities := [.tcpServer 0, .tcpServer 20333] }
  let remote : Endpoint := ⟨.v4 ⟨[10, 0, 0, 1], rfl⟩, 1⟩
  let record : AddressRecord := .ofIp remote.ip version.timestamp version.capabilities
  have hafter : after settings (visit ledger version) =
      (handshake ledger ⟨0, 0⟩ version).foldl advance
        (firstMet settings ledger 0 remote .inbound) := by
    rw [after, visit, List.foldl_cons, advance_connect (by decide) (by decide)]
  refine ⟨ledger, version, record, ?_⟩
  rw [hafter]
  refine ⟨rfl, rfl, rfl, rfl, rfl, ?_, rfl, rfl, rfl⟩
  decide +kernel

end Assembly

end PeerNet
