import PeerNet.Ledger.Memory
import PeerNet.Proofs.Manager.Locality
import PeerNet.Proofs.Manager.Targets
import PeerNet.Session.Step

/-!
# Suggestions

Asked for addresses, the manager suggests peers that are ready and accept connections
(`Manager.listeners`), one for each of their addresses, as many as it may.  Which of them depends on
the order in which it goes through the connections and on a draw; how many does not
(`Manager.length_connectedPeers`).
-/

namespace PeerNet

/-- Choices that are free in nothing but what they should be: connections are gone through in some
order, and a draw takes as many records as it may from those that there are, none of them twice. -/
structure Choices.Draws (choices : Choices) : Prop where
  order_perm : ∀ entries, (choices.order entries).Perm entries
  drawRecords_subperm : ∀ count records, (choices.drawRecords count records).Subperm records
  length_drawRecords : ∀ count records,
    (choices.drawRecords count records).length = min count records.length

/-- Choices that draw from what there is choose from what there is. -/
lemma Choices.Draws.selects {choices : Choices} (h : choices.Draws) : choices.Selects where
  order_subset entries := (h.order_perm entries).subset
  drawRecords_subset count records := (h.drawRecords_subperm count records).subset

namespace PeerEntry

variable {e : PeerEntry} {record : AddressRecord}

/-- A peer can be suggested if it accepts connections. -/
lemma isSome_suggestion (e : PeerEntry) : e.suggestion.isSome = e.listenerPort.isSome := by
  unfold suggestion listenerPort
  cases e.version with
  | none => rfl
  | some v => simp

/-- A peer is suggested under the address of its far end in normal form. -/
lemma ip_of_suggestion (h : e.suggestion = some record) : record.ip = e.remote.ip.normal := by
  obtain ⟨v, -, rfl⟩ := suggestion_eq_some h
  exact Ip.normal_normal e.remote.ip

end PeerEntry

namespace Manager

variable {m : Manager} {choices : Choices} {settings : Settings}

/-- The connections that are ready and whose peers accept connections. -/
def listeners (m : Manager) : List (PeerId × PeerEntry) :=
  m.registry.ready.filter (·.2.listenerPort.isSome)

/-! ## One record for each address -/

/-- No address is lost, but those seen before. -/
lemma mem_map_ip_onePerAddress {ip : Ip} (seen : List Ip) (records : List AddressRecord) :
    ip ∈ (onePerAddress seen records).map AddressRecord.ip ↔
      ip ∈ records.map AddressRecord.ip ∧ ip ∉ seen := by
  induction records generalizing seen with
  | nil => simp [onePerAddress]
  | cons r rest ih =>
    rw [onePerAddress, List.map_cons, List.mem_cons]
    split_ifs with hseen
    · rw [List.contains_iff_mem] at hseen
      rw [ih]
      constructor
      · exact And.imp_left .inr
      · rintro ⟨rfl | hrest, hnew⟩
        · exact absurd hseen hnew
        · exact ⟨hrest, hnew⟩
    · rw [List.contains_iff_mem] at hseen
      rw [List.map_cons, List.mem_cons, ih, List.mem_cons]
      by_cases hip : ip = r.ip
      · simp [hip, hseen]
      · simp [hip]

/-- No address is left twice. -/
lemma nodup_map_ip_onePerAddress (seen : List Ip) (records : List AddressRecord) :
    ((onePerAddress seen records).map AddressRecord.ip).Nodup := by
  induction records generalizing seen with
  | nil => exact .nil
  | cons r rest ih =>
    rw [onePerAddress]
    split_ifs with hseen
    · exact ih seen
    · rw [List.map_cons, List.nodup_cons]
      refine ⟨fun hmem => ?_, ih (r.ip :: seen)⟩
      exact ((mem_map_ip_onePerAddress _ _).mp hmem).2 List.mem_cons_self

/-- One record is kept for each address. -/
lemma length_onePerAddress (records : List AddressRecord) :
    (onePerAddress [] records).length = (records.map AddressRecord.ip).toFinset.card := by
  have hsame : ((onePerAddress [] records).map AddressRecord.ip).toFinset =
      (records.map AddressRecord.ip).toFinset := by
    ext ip
    rw [List.mem_toFinset, List.mem_toFinset, mem_map_ip_onePerAddress]
    exact and_iff_left List.not_mem_nil
  rw [← hsame, List.toFinset_card_of_nodup (nodup_map_ip_onePerAddress [] records),
    List.length_map]

/-! ## What is drawn from -/

/-- Whatever the order, the records to draw from have the addresses of the peers that accept
connections. -/
lemma mem_map_ip_suggestions (hdraws : choices.Draws) (m : Manager) (ip : Ip) :
    ip ∈ (((choices.order m.registry.peers).filter (·.2.ready)).filterMap (·.2.suggestion)).map
        AddressRecord.ip ↔
      ip ∈ m.listeners.map (·.2.remote.ip.normal) := by
  have hready : ∀ p, p ∈ (choices.order m.registry.peers).filter (·.2.ready) ↔
      p ∈ m.registry.ready := by
    intro p
    rw [Registry.ready, List.mem_filter, List.mem_filter, (hdraws.order_perm _).mem_iff]
  rw [List.mem_map, List.mem_map]
  constructor
  · rintro ⟨record, hrecord, rfl⟩
    obtain ⟨p, hp, hsuggestion⟩ := List.mem_filterMap.mp hrecord
    refine ⟨p, List.mem_filter.mpr ⟨(hready p).mp hp, ?_⟩,
      (PeerEntry.ip_of_suggestion hsuggestion).symm⟩
    rw [← PeerEntry.isSome_suggestion, hsuggestion]
    rfl
  · rintro ⟨p, hp, rfl⟩
    obtain ⟨hp, hlistener⟩ := List.mem_filter.mp hp
    rw [← PeerEntry.isSome_suggestion] at hlistener
    obtain ⟨record, hsuggestion⟩ := Option.isSome_iff_exists.mp hlistener
    exact ⟨record, List.mem_filterMap.mpr ⟨p, (hready p).mpr hp, hsuggestion⟩,
      PeerEntry.ip_of_suggestion hsuggestion⟩

/-- As many peers are suggested as may be, and as there are addresses. -/
lemma length_connectedPeers (hdraws : choices.Draws) (m : Manager) (count : Nat) :
    (m.connectedPeers choices count).length =
      min count (m.listeners.map (·.2.remote.ip.normal)).toFinset.card := by
  have hsame := Finset.ext fun ip =>
    List.mem_toFinset.trans ((m.mem_map_ip_suggestions hdraws ip).trans List.mem_toFinset.symm)
  rw [connectedPeers, hdraws.length_drawRecords, length_onePerAddress, hsame]

/-- No address is suggested twice. -/
lemma nodup_map_ip_connectedPeers (hdraws : choices.Draws) (m : Manager) (count : Nat) :
    ((m.connectedPeers choices count).map AddressRecord.ip).Nodup := by
  let entries := (choices.order m.registry.peers).filter (·.2.ready)
  obtain ⟨drawn, hperm, hsublist⟩ := hdraws.drawRecords_subperm count
    (onePerAddress [] (entries.filterMap (·.2.suggestion)))
  have hnodup := (nodup_map_ip_onePerAddress [] _).sublist (hsublist.map AddressRecord.ip)
  exact (hperm.map AddressRecord.ip).nodup_iff.mp hnodup

/-- Each suggestion is that of a peer that is ready and accepts connections. -/
lemma exists_listener_of_mem_connectedPeers (hdraws : choices.Draws) {count : Nat}
    {record : AddressRecord} (h : record ∈ m.connectedPeers choices count) :
    ∃ p ∈ m.listeners, ∃ v, p.2.version = some v ∧
      record = ⟨v.timestamp, p.2.remote.ip.normal, v.capabilities⟩ := by
  obtain ⟨p, hp, hsuggestion⟩ := exists_ready_of_mem_connectedPeers hdraws.selects h
  obtain ⟨v, hversion, rfl⟩ := PeerEntry.suggestion_eq_some hsuggestion
  refine ⟨p, List.mem_filter.mpr ⟨hp, ?_⟩, v, hversion, ?_⟩
  · rw [← PeerEntry.isSome_suggestion, hsuggestion]
    rfl
  · rw [AddressRecord.ofIp, PeerEntry.address, Ip.normal_normal]

end Manager

namespace Session

variable {s : Session} {ledger : Ledger} {moment : Moment}

/-! ## A request for addresses -/

/-- Asked for addresses, a session asks the manager, and waits. -/
lemma step_getAddr (hphase : s.phase = .idle) (hready : s.isReady = true) (ledger : Ledger)
    (moment : Moment) :
    s.step ledger moment (.item (.message .getAddr)) =
      ({ s with phase := .awaitingAddresses, agenda := [] }, [.notify .addressRequest]) := by
  have hgate : gate s.handler.state Message.getAddr.command = .dispatch := by
    rw [beq_iff_eq.mp hready]
    rfl
  have hhandled : s.handler.handle ledger moment (.message .getAddr) =
      .done (s.handler.answering [.addressRequest]) := by
    unfold Handler.handle Handler.handleMessage
    dsimp only
    rw [hgate]
    rfl
  unfold step
  rw [hphase]
  dsimp only
  rw [onItem, hhandled]
  rfl

/-- It passes on the addresses that it is told of. -/
lemma step_addresses (hphase : s.phase = .awaitingAddresses) {records : List AddressRecord}
    (hrecords : records ≠ []) (ledger : Ledger) (moment : Moment) :
    s.step ledger moment (.answer (.addresses records)) =
      ({ s with phase := .writing }, [.write (.addr records)]) := by
  obtain ⟨record, rest, rfl⟩ := List.exists_cons_of_ne_nil hrecords
  unfold step
  rw [hphase]
  rfl

/-- If there are none it stays silent. -/
lemma step_no_addresses (hphase : s.phase = .awaitingAddresses) (hagenda : s.agenda = [])
    (ledger : Ledger) (moment : Moment) :
    s.step ledger moment (.answer (.addresses [])) = ({ s with phase := .idle }, []) := by
  unfold step
  rw [hphase]
  dsimp only
  rw [onAnswer, resume, hagenda, carryOut, ← hagenda]

end Session

namespace Manager

variable {m : Manager} {choices : Choices} {settings : Settings} {peer : PeerId}

/-- A session that asks for addresses is answered, and nothing else is done. -/
lemma AtRest.step_addressRequest (h : m.AtRest settings) (hlive : m.isStopped = false)
    (choices : Choices) (moment : Moment) (peer : PeerId) :
    m.step choices moment (.notice peer .addressRequest) =
      (m, [.answer peer (.addresses (m.connectedPeers choices maxSuggestions))]) := by
  rw [step_of_live hlive, handle, onNotice, h.settled]
  rfl

/-- In whatever order the manager goes through its connections and whatever it draws, so many peers
are suggested as may be and as there are addresses, in normal form, from which peers that are ready
and accept connections are connected; no address is suggested twice; and each record is that of such
a peer: its address in normal form, and the time and the capabilities that it announced.  So a
session whose peer asks for addresses writes them in one message, at least one and at most two
hundred, if there is such a peer, and nothing at all if there is none. -/
theorem suggestions_fill_draw (settings : Settings)
    (commands : List (Choices × Moment × ManagerCommand)) (choices : Choices)
    (hdraws : choices.Draws) :
    let m := after settings commands
    (∀ count,
      let records := m.connectedPeers choices count
      records.length = min count (m.listeners.map (·.2.remote.ip.normal)).toFinset.card ∧
      (records.map AddressRecord.ip).Nodup ∧
      ∀ record ∈ records, ∃ p ∈ m.listeners, ∃ v, p.2.version = some v ∧
        record = ⟨v.timestamp, p.2.remote.ip.normal, v.capabilities⟩) ∧
    ∀ peer ∈ m.registry.ids, ∀ (s : Session), s.phase = .idle → s.isReady = true →
      ∀ ledger moment,
        let asked := s.step ledger moment (.item (.message .getAddr))
        let records := m.connectedPeers choices 200
        asked.2 = [.notify .addressRequest] ∧
        m.step choices moment (.notice peer .addressRequest) =
          (m, [.answer peer (.addresses records)]) ∧
        ∀ ledger' moment',
          let answered := asked.1.step ledger' moment' (.answer (.addresses records))
          (m.listeners ≠ [] → answered.2 = [.write (.addr records)] ∧
            1 ≤ records.length ∧ records.length ≤ 200 ∧
            ∀ ledger'' moment'', (answered.1.step ledger'' moment'' (.written true)).2 = []) ∧
          (m.listeners = [] → answered.2 = [] ∧ answered.1.phase = .idle) := by
  intro m
  have hm : m.AtRest settings := atRest_after settings commands
  refine ⟨fun count => ⟨m.length_connectedPeers hdraws count,
    m.nodup_map_ip_connectedPeers hdraws count,
    fun record => exists_listener_of_mem_connectedPeers hdraws⟩, ?_⟩
  intro peer hpeer s hphase hready ledger moment asked records
  let waiting : Session := { s with phase := .awaitingAddresses, agenda := [] }
  have hasked : asked = (waiting, [.notify .addressRequest]) :=
    Session.step_getAddr hphase hready ledger moment
  have hlength : records.length = min 200 (m.listeners.map (·.2.remote.ip.normal)).toFinset.card :=
    m.length_connectedPeers hdraws 200
  refine ⟨by rw [hasked],
    hm.step_addressRequest (hm.isStopped_of_live hpeer) choices moment peer, ?_⟩
  intro ledger' moment' answered
  have hanswered : answered = waiting.step ledger' moment' (.answer (.addresses records)) := by
    change asked.1.step _ _ _ = _
    rw [hasked]
  constructor
  · intro hlisteners
    have hsome : 0 < (m.listeners.map (·.2.remote.ip.normal)).toFinset.card := by
      obtain ⟨p, hp⟩ := List.exists_mem_of_ne_nil _ hlisteners
      exact Finset.card_pos.mpr ⟨_, List.mem_toFinset.mpr (List.mem_map_of_mem hp)⟩
    have hpos : 0 < records.length := by
      rw [hlength]
      exact Nat.lt_min.mpr ⟨Nat.zero_lt_succ 199, hsome⟩
    rw [hanswered, Session.step_addresses rfl (List.length_pos_iff.mp hpos)]
    refine ⟨rfl, hpos, ?_, fun _ _ => rfl⟩
    rw [hlength]
    exact Nat.min_le_left _ _
  · intro hnone
    have hempty : records = [] := by
      rw [← List.length_eq_zero_iff, hlength, hnone]
      rfl
    rw [hanswered, hempty, Session.step_no_addresses rfl rfl]
    exact ⟨rfl, rfl⟩

/-- Two peers that are ready and accept connections, from one address spelled in two ways, make for
one suggestion: that of the one which comes first. -/
theorem suggestions_fill_draw_of_shared_address :
    ∃ (choices : Choices) (commands : List (Choices × Moment × ManagerCommand)) (s : Session)
      (ledger : Ledger) (record : AddressRecord),
      let m := after (.standard (.ofMagic 7 1)) commands
      let asked := s.step ledger ⟨0, 0⟩ (.item (.message .getAddr))
      choices.Draws ∧ m.listeners.map Prod.fst = [⟨1⟩, ⟨2⟩] ∧
      (m.connectedPeers choices 200).length = 1 ∧ m.connectedPeers choices 200 = [record] ∧
      s.phase = .idle ∧ s.isReady = true ∧ asked.2 = [.notify .addressRequest] ∧
      (asked.1.step ledger ⟨0, 0⟩ (.answer (.addresses [record]))).2 =
        [.write (.addr [record])] := by
  let settings : Settings := .standard (.ofMagic 7 1)
  let now : Moment := ⟨0, 0⟩
  let backwards : Choices :=
    ⟨List.reverse, fun count records => records.reverse.take count, List.take⟩
  have hdraws : backwards.Draws := by
    refine ⟨List.reverse_perm, fun count records => ?_, fun count records => ?_⟩
    · exact (List.take_sublist _ _).subperm.trans (List.reverse_perm records).subperm
    · rw [List.length_take, List.length_reverse]
  let octets : FixedBytes 4 := ⟨[10, 0, 0, 1], rfl⟩
  let plain : Endpoint := ⟨.v4 octets, 1⟩
  let mapped : Endpoint := ⟨.v6 (Ip.wireOctets (.v4 octets)), 2⟩
  let version (nonce : UInt32) (port : UInt16) : Version :=
    Identity.version { Identity.ofMagic 7 nonce with listenerPort := some port } 0 0
  let told (number : Nat) (n : PeerNotice) : Choices × Moment × ManagerCommand :=
    (backwards, now, .notice ⟨number⟩ n)
  let notices : List (Choices × Moment × ManagerCommand) :=
    [told 1 (.introduced (version 2 20333)), told 2 (.introduced (version 3 20334)), told 1 .ready,
      told 2 .ready]
  let met := connects .first now [(plain, .inbound), (mapped, .inbound)]
  let commands := met ++ notices
  let both : Manager := { start settings with
    registry := (Registry.empty.joinedBy plain .inbound).joinedBy mapped .inbound }
  have hmet : (start settings).thereafter met = both ∧ _ :=
    (atRest_start settings).thereafter_connects rfl (by decide) (by decide) .first now
  have hafter : after settings commands = both.thereafter notices := by
    rw [after_append, ← hmet.1]
    rfl
  let record : AddressRecord :=
    ⟨(version 3 20334).timestamp, plain.ip, (version 3 20334).capabilities⟩
  let ledger : Ledger := MemoryLedger.toLedger ⟨[], none, [], [], [], [], none, 0⟩
  let s : Session := ⟨{ Handler.start ledger 0 with state := .ready }, .idle, [], true⟩
  obtain ⟨hdrawn, hasked⟩ :=
    suggestions_fill_draw settings commands backwards hdraws
  have hlisteners : (after settings commands).listeners.map Prod.fst = [⟨1⟩, ⟨2⟩] := by
    rw [hafter]
    decide +kernel
  have hrecords : (after settings commands).connectedPeers backwards 200 = [record] := by
    rw [hafter]
    decide +kernel
  have hmember : ⟨1⟩ ∈ (after settings commands).registry.ids := by
    rw [hafter]
    decide +kernel
  have hsome : (after settings commands).listeners ≠ [] := by
    intro hnone
    rw [hnone] at hlisteners
    exact List.cons_ne_nil _ _ hlisteners.symm
  obtain ⟨hrequest, -, hanswered⟩ := hasked ⟨1⟩ hmember s rfl rfl ledger now
  have hwritten := ((hanswered ledger now).1 hsome).1
  have hlength := (hdrawn 200).1
  rw [hrecords] at hwritten
  refine ⟨backwards, commands, s, ledger, record, hdraws, hlisteners, ?_, hrecords, rfl, rfl,
    hrequest, hwritten⟩
  refine hlength.trans ?_
  rw [hafter]
  decide +kernel

end Manager

end PeerNet
