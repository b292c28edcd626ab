import PeerNet.Proofs.Manager.Locality
import PeerNet.Proofs.Peer.Sightings

/-!
# Discovery

The node looks for new connections among the endpoints in its address book to which no connection
leads (`PeerEntry.LeadsTo`).  Addresses come in two spellings, and the book, the remote end of a
connection and the listener of its peer are brought to normal form in three places.  The book files
each record under the endpoint that it names, in normal form (`AddressBook.Keyed`), and drops
nothing.  So a peer that is filed when it is accepted is filed where its connection leads, for as
long as nothing else is known of it (`Manager.AtRest.keeps_thereafter`).
-/

namespace PeerNet

/-- A connection leads to the endpoint at its other end, and to that at which its peer accepts
connections; how their addresses are spelled does not matter. -/
def PeerEntry.LeadsTo (e : PeerEntry) (endpoint : Endpoint) : Prop :=
  e.remote.normal = endpoint.normal ∨ ∃ v ∈ e.version, ∃ port ∈ v.listenerPort,
    (⟨e.remote.ip, port⟩ : Endpoint).normal = endpoint.normal

/-- The check that compares endpoints in normal form finds just the connections that lead there. -/
lemma PeerEntry.reaches_iff {e : PeerEntry} {endpoint : Endpoint} :
    e.reaches endpoint.normal = true ↔ e.LeadsTo endpoint := by
  rw [reaches, Bool.or_eq_true, beq_iff_eq, beq_iff_eq, LeadsTo, listener, listenerPort]
  refine or_congr_right ?_
  rw [Option.map_eq_some_iff]
  constructor
  · rintro ⟨port, hport, hsame⟩
    obtain ⟨v, hversion, hlistener⟩ := Option.bind_eq_some_iff.mp hport
    exact ⟨v, hversion, port, hlistener, hsame⟩
  · rintro ⟨v, hversion, port, hlistener, hsame⟩
    exact ⟨port, Option.bind_eq_some_iff.mpr ⟨v, hversion, hlistener⟩, hsame⟩

/-- A registry is connected to an endpoint if one of its connections leads there. -/
lemma Registry.isConnectedTo_iff {r : Registry} {endpoint : Endpoint} :
    r.isConnectedTo endpoint = true ↔ ∃ p ∈ r.peers, p.2.LeadsTo endpoint := by
  rw [isConnectedTo, List.any_eq_true]
  exact exists_congr fun p => and_congr_right fun _ => PeerEntry.reaches_iff

namespace AddressBook

variable {b : AddressBook} {record : AddressRecord} {key : Endpoint} {now : Nat}

/-! ## Where records are filed -/

/-- Each record is filed under the endpoint that it names, and no endpoint comes twice. -/
structure Keyed (b : AddressBook) : Prop where
  nodup : b.endpoints.Nodup
  filed : ∀ p ∈ b.entries, key? p.2.record = some p.1

/-- The book knows endpoints in normal form only. -/
lemma Keyed.normal_eq (h : b.Keyed) (hkey : key ∈ b.endpoints) : key.normal = key := by
  obtain ⟨p, hp, rfl⟩ := List.mem_map.mp hkey
  have hfiled := h.filed p hp
  rw [key?] at hfiled
  obtain ⟨-, hsame⟩ := Option.ite_none_left_eq_some.mp hfiled
  rw [← Option.some.inj hsame, Endpoint.normal, Endpoint.normal, Ip.normal_normal]

/-- An empty book has no endpoint twice. -/
lemma keyed_ofSize (maxSize : Nat) : (ofSize maxSize).Keyed := ⟨.nil, List.forall_mem_nil _⟩

/-- Filing a record keeps each under its own endpoint. -/
lemma Keyed.add (h : b.Keyed) (record : AddressRecord) (now : Nat) :
    (b.add record now).1.Keyed := by
  have hfiling := b.add_filing record now
  generalize b.add record now = r at hfiling
  cases hfiling with
  | unreachable | crowdedOut => exact h
  | @renewed key hkey =>
    refine ⟨?_, ?_⟩
    · rw [endpoints_renew]
      exact h.nodup
    · intro p hp
      obtain ⟨q, hq, rfl⟩ := List.mem_map.mp hp
      dsimp only
      split_ifs with hsame
      · exact hsame ▸ hkey
      · exact h.filed q hq
  | @appended key hkey hnew =>
    refine ⟨?_, List.forall_mem_append.mpr ⟨h.filed, List.forall_mem_singleton.mpr hkey⟩⟩
    rw [endpoints, List.map_append, List.map_singleton]
    exact List.nodup_append_comm.mp (List.nodup_cons.mpr ⟨hnew, h.nodup⟩)

/-- Filing a record drops no endpoint. -/
lemma endpoints_subset_add (b : AddressBook) (record : AddressRecord) (now : Nat) :
    b.endpoints ⊆ (b.add record now).1.endpoints := by
  have hfiling := b.add_filing record now
  generalize b.add record now = r at hfiling
  cases hfiling with
  | unreachable | crowdedOut => exact List.Subset.refl _
  | renewed =>
    rw [endpoints_renew]
    exact List.Subset.refl _
  | appended =>
    rw [endpoints, endpoints, List.map_append]
    exact List.subset_append_left _ _

/-- Filing many records keeps each under its own endpoint. -/
lemma Keyed.addAll (h : b.Keyed) (seen : List Sighting) : (b.addAll seen).Keyed :=
  List.foldlRecOn seen _ h fun _ hb s _ => hb.add s.1 s.2

/-- Filing many records drops no endpoint. -/
lemma endpoints_subset_addAll (b : AddressBook) (seen : List Sighting) :
    b.endpoints ⊆ (b.addAll seen).endpoints := by
  induction seen generalizing b with
  | nil => exact List.Subset.refl _
  | cons s more ih => exact List.Subset.trans (b.endpoints_subset_add s.1 s.2) (ih _)

/-- The record of a peer is filed only under the endpoint at which the peer accepts connections. -/
lemma exists_listenerPort_of_key?_ofIp {ip : Ip} {timestamp : UInt32} {cs : List Capability}
    (hkey : key? (.ofIp ip timestamp cs) = some key) :
    ∃ port, Capability.listenerPort cs = some port ∧ key = ⟨ip.normal, port⟩ := by
  have hip : key.ip = ip.normal := ip_of_key?_ofIp hkey
  rw [key?] at hkey
  obtain ⟨hreal, hsame⟩ := Option.ite_none_left_eq_some.mp hkey
  obtain rfl := Option.some.inj hsame
  obtain ⟨hport, -⟩ := not_or.mp hreal
  have hpos : 0 < (AddressRecord.ofIp ip timestamp cs).endpoint.port :=
    UInt16.pos_iff_ne_zero.mpr hport
  have hendpoint := AddressRecord.endpoint_ofIp_eq_iff.mp ⟨rfl, hpos⟩
  exact ⟨_, hendpoint.1, Endpoint.mk.injEq .. ▸ ⟨hip, rfl⟩⟩

end AddressBook

namespace Manager

variable {m : Manager} {choices : Choices} {moment : Moment} {peer : PeerId} {c : ManagerCommand}
  {settings : Settings} {e e' : PeerEntry}

/-! ## What becomes of the book -/

/-- All that a command does to the book is to file records. -/
lemma book_handle (m : Manager) (choices : Choices) (moment : Moment) (c : ManagerCommand) :
    ∃ seen, (m.handle choices moment c).1.book = m.book.addAll seen := by
  cases c with
  | connect remote direction =>
    have hanswers := m.answers_connect choices remote direction
    rw [handle]
    generalize m.connect choices remote direction = r at hanswers
    cases hanswers <;> exact ⟨[], rfl⟩
  | notice id n =>
    cases n with
    | introduced version =>
      rcases m.book_allow_eq_or id version moment.now with hsame | ⟨entry, -, -, hfiled⟩
      · exact ⟨[], hsame⟩
      · exact ⟨[(_, moment.now)], hfiled⟩
    | suggested records =>
      refine ⟨records.map (·, moment.now), ?_⟩
      rw [AddressBook.addAll, List.foldl_map]
      rfl
    | remoteHeight height =>
      rcases m.book_onNotice_eq_or choices moment id (n := .remoteHeight height) rfl with
        hsame | ⟨_, _, _, hn, -⟩
      · exact ⟨[], hsame⟩
      · exact PeerNotice.noConfusion hn
    | ready | filterChanged | delivered | addressRequest | disconnected => exact ⟨[], rfl⟩
  | addPeers endpoints =>
    refine ⟨endpoints.map fun e =>
      (.ofIp e.ip moment.unixTime [.tcpServer e.port], moment.now), ?_⟩
    rw [handle, addRecords, AddressBook.addAll, List.foldl_map, List.foldl_map]
  | tick =>
    refine ⟨[], ?_⟩
    rw [handle]
    split
    · obtain ⟨dialing, hdiscover⟩ := m.discover_eq choices
      rw [hdiscover]
      rfl
    · rfl
  | shutdown caller =>
    refine ⟨[], ?_⟩
    rw [handle, beginShutdown]
    split <;> rfl
  | relay | broadcast | inspect | dialFinished | rejectionFinished => exact ⟨[], rfl⟩

/-- A command does nothing to the address book but file records. -/
lemma book_step (m : Manager) (choices : Choices) (moment : Moment) (c : ManagerCommand) :
    ∃ seen, (m.step choices moment c).1.book = m.book.addAll seen := by
  cases hlive : m.isStopped with
  | true =>
    rw [step_of_stopped hlive]
    exact ⟨[], rfl⟩
  | false =>
    rw [step_of_live hlive]
    dsimp only
    rw [(stopIfDone_eq _).2.1]
    exact m.book_handle choices moment c

/-- However many commands follow, the book stays in order and drops nothing. -/
lemma book_thereafter (hkeyed : m.book.Keyed)
    (commands : List (Choices × Moment × ManagerCommand)) :
    (m.thereafter commands).book.Keyed ∧
      m.book.endpoints ⊆ (m.thereafter commands).book.endpoints := by
  induction commands generalizing m with
  | nil => exact ⟨hkeyed, List.Subset.refl _⟩
  | cons x rest ih =>
    obtain ⟨choices, moment, c⟩ := x
    obtain ⟨seen, hbook⟩ := m.book_step choices moment c
    have hnext : (m.step choices moment c).1.book.Keyed := hbook ▸ hkeyed.addAll seen
    have hsubset : m.book.endpoints ⊆ (m.step choices moment c).1.book.endpoints :=
      hbook ▸ m.book.endpoints_subset_addAll seen
    rw [thereafter_cons]
    exact ⟨(ih hnext).1, List.Subset.trans hsubset (ih hnext).2⟩

/-- After all commands, each record is filed under its endpoint and no endpoint comes twice. -/
lemma keyed_after (settings : Settings)
    (commands : List (Choices × Moment × ManagerCommand)) :
    (after settings commands).book.Keyed :=
  (book_thereafter (m := start settings) (AddressBook.keyed_ofSize _) commands).1

/-! ## What is offered -/

/-- No endpoint that is unconnected is listed twice. -/
lemma nodup_unconnectedPeers (hkeyed : m.book.Keyed) : m.unconnectedPeers.Nodup :=
  hkeyed.nodup.filter _

/-- What is listed as unconnected are the endpoints of the book to which no live connection
leads. -/
lemma mem_unconnectedPeers_iff {endpoint : Endpoint} :
    endpoint ∈ m.unconnectedPeers ↔
      endpoint ∈ m.book.endpoints ∧ ∀ p ∈ m.registry.peers, ¬ p.2.LeadsTo endpoint := by
  rw [unconnectedPeers, List.mem_filter, Bool.not_eq_true', ← Bool.not_eq_true,
    Registry.isConnectedTo_iff]
  simp only [not_exists, not_and]

/-! ## Peers that introduce themselves once -/

/-- Unless it introduces itself again, a peer stays where it is and who it is. -/
lemma AtRest.keeps_step (h : m.AtRest settings) (hmem : (peer, e) ∈ m.registry.peers)
    (honce : ∀ version, c ≠ .notice peer (.introduced version))
    (hmem' : (peer, e') ∈ (m.step choices moment c).1.registry.peers) :
    e'.remote = e.remote ∧ e'.version = e.version := by
  have hconsistent := h.discerning.consistent
  have hrevision := step_revision hconsistent choices moment c
  generalize m.step choices moment c = r at hrevision hmem'
  cases hrevision with
  | admitted hpeers =>
    rw [hpeers, List.mem_append, List.mem_singleton] at hmem'
    rcases hmem' with hold | hnew
    · rw [hconsistent.eq_of_mem hold hmem]
      exact ⟨rfl, rfl⟩
    · have hbounded := hconsistent.bounded peer (List.mem_map.mpr ⟨_, hmem, rfl⟩)
      rw [(Prod.mk.inj hnew).1] at hbounded
      exact absurd hbounded (Nat.not_succ_le_self _)
  | @identified id version _ _ _ _ _ _ _ hregistry =>
    have hne : peer ≠ id := by
      rintro rfl
      exact honce version rfl
    rw [hregistry, Registry.mem_modify_of_ne hne] at hmem'
    rw [hconsistent.eq_of_mem hmem' hmem]
    exact ⟨rfl, rfl⟩
  | routine hrecalls =>
    obtain ⟨before, hbefore, hkeeps⟩ := hrecalls _ hmem'
    rw [hconsistent.eq_of_mem hbefore hmem] at hkeeps
    exact ⟨hkeeps.remote_eq, hkeeps.version_eq⟩

/-- A connection that is not introduced again keeps the far end and the version that it has, for as
long as it lives. -/
lemma AtRest.keeps_thereafter (h : m.AtRest settings) (hmem : (peer, e) ∈ m.registry.peers)
    {commands : List (Choices × Moment × ManagerCommand)}
    (honce : ∀ x ∈ commands, ∀ version, x.2.2 ≠ .notice peer (.introduced version))
    (hmem' : (peer, e') ∈ (m.thereafter commands).registry.peers) :
    e'.remote = e.remote ∧ e'.version = e.version := by
  induction commands generalizing m e with
  | nil =>
    rw [h.discerning.consistent.eq_of_mem hmem' hmem]
    exact ⟨rfl, rfl⟩
  | cons x rest ih =>
    obtain ⟨choices, moment, c⟩ := x
    rw [List.forall_mem_cons] at honce
    have hnext := h.step choices moment c
    by_cases hlive : peer ∈ (m.step choices moment c).1.registry.ids
    · obtain ⟨⟨_, between⟩, hbetween, rfl⟩ := List.mem_map.mp hlive
      obtain ⟨hremote, hversion⟩ := h.keeps_step hmem honce.1 hbetween
      obtain ⟨hremote', hversion'⟩ := ih hnext hbetween honce.2 hmem'
      exact ⟨hremote'.trans hremote, hversion'.trans hversion⟩
    · -- Once it is gone it does not come back.
      have hissued :=
        h.number_le_lastId_step (List.mem_map.mpr ⟨_, hmem, rfl⟩) choices moment c
      refine absurd ?_ (hnext.notMem_ids_thereafter hissued hlive rest)
      exact List.mem_map.mpr ⟨_, hmem', rfl⟩

/-- A peer that may stay is known by its version. -/
lemma AtRest.mem_step_of_consent (h : m.AtRest settings) {version : Version} {entry : PeerEntry}
    (hentry : m.registry.get? peer = some entry)
    (hallowed : .answer peer (.verdict (.ok ())) ∈
      (m.step choices moment (.notice peer (.introduced version))).2) :
    (peer, entry.knownAs version) ∈
      (m.step choices moment (.notice peer (.introduced version))).1.registry.peers := by
  have hmem := Registry.mem_of_get? hentry
  have hlive := h.isStopped_of_live (List.mem_map.mpr ⟨_, hmem, rfl⟩)
  rw [verdict_mem_step_iff hlive] at hallowed
  rw [step_introduced hlive]
  dsimp only
  rw [(stopIfDone_eq _).1]
  have hjudges := m.judges_allow peer version moment.now
  generalize m.allow peer version moment.now = judged at hjudges hallowed
  cases hjudges with
  | refused => exact Except.noConfusion rfl rfl (heq_of_eq hallowed)
  | accepted => exact Registry.mem_modify.mpr ⟨entry, hmem, (if_pos rfl).symm⟩

/-- Whatever commands a manager took, the endpoints that it offers for new connections are those in
the address book to which no live connection leads, each of them once and in normal form: a
connection leads to its remote end and to the listener that its peer announced, and spelling does
not matter.  In particular, the endpoint under which a peer is filed when it may stay is not offered
while the connection is live, unless the peer introduces itself again; and when the connection is
gone, it is offered exactly if no other connection leads to it. -/
theorem discovery_avoids_connected (settings : Settings)
    (commands : List (Choices × Moment × ManagerCommand)) :
    let m := after settings commands
    m.unconnectedPeers.Nodup ∧ (∀ endpoint ∈ m.unconnectedPeers, endpoint.normal = endpoint) ∧
    (∀ endpoint, endpoint ∈ m.unconnectedPeers ↔
      endpoint ∈ m.book.endpoints ∧ ∀ p ∈ m.registry.peers, ¬ p.2.LeadsTo endpoint) ∧
    ∀ choices moment peer version entry key, m.registry.get? peer = some entry →
      let next := m.step choices moment (.notice peer (.introduced version))
      let record := AddressRecord.ofIp entry.remote.ip version.timestamp version.capabilities
      .answer peer (.verdict (.ok ())) ∈ next.2 →
      (key, ⟨record, moment.now⟩) ∈ next.1.book.entries →
      ∀ later, (∀ x ∈ later, ∀ version', x.2.2 ≠ .notice peer (.introduced version')) →
        let m' := next.1.thereafter later
        (peer ∈ m'.registry.ids → key ∉ m'.unconnectedPeers) ∧
        (peer ∉ m'.registry.ids →
          (key ∈ m'.unconnectedPeers ↔ ∀ p ∈ m'.registry.peers, ¬ p.2.LeadsTo key)) := by
  intro m
  have hm : m.AtRest settings := atRest_after settings commands
  have hkeyed : m.book.Keyed := keyed_after settings commands
  have hnormal : ∀ endpoint ∈ m.unconnectedPeers, endpoint.normal = endpoint :=
    fun _ hoffered => hkeyed.normal_eq (mem_unconnectedPeers_iff.mp hoffered).1
  refine ⟨nodup_unconnectedPeers hkeyed, hnormal, fun _ => mem_unconnectedPeers_iff, ?_⟩
  intro choices moment peer version entry key hentry next record hallowed hfiled later honce m'
  have hnext : next.1.AtRest settings := hm.step choices moment _
  obtain ⟨seen, hbook⟩ := m.book_step choices moment (.notice peer (.introduced version))
  have hkeyed' : next.1.book.Keyed := hbook ▸ hkeyed.addAll seen
  constructor
  · intro hlive hoffered
    obtain ⟨⟨_, e⟩, he, rfl⟩ := List.mem_map.mp hlive
    obtain ⟨hremote, hversion⟩ :=
      hnext.keeps_thereafter (hm.mem_step_of_consent hentry hallowed) honce he
    obtain ⟨port, hport, rfl⟩ :=
      AddressBook.exists_listenerPort_of_key?_ofIp (hkeyed'.filed _ hfiled)
    refine (mem_unconnectedPeers_iff.mp hoffered).2 _ he (.inr ⟨version, hversion, port, hport, ?_⟩)
    rw [hremote, Endpoint.normal, Endpoint.normal, Ip.normal_normal]
    rfl
  · intro _
    have hknown : key ∈ m'.book.endpoints :=
      (book_thereafter hkeyed' later).2 (List.mem_map.mpr ⟨_, hfiled, rfl⟩)
    rw [mem_unconnectedPeers_iff]
    exact and_iff_right hknown

/-- A peer connects from an address spelled in one way, and its listener is dialed at the address
spelled in the other: the listener is offered when both connections are gone, and not before. -/
theorem discovery_avoids_connected_of_two_spellings :
    ∃ (commands first second : List (Choices × Moment × ManagerCommand)) (version : Version)
      (key : Endpoint),
      let m := after (.standard (.ofMagic 7 1)) commands
      let next := m.step .first ⟨0, 0⟩ (.notice ⟨1⟩ (.introduced version))
      next.1.registry.ids = [⟨1⟩, ⟨2⟩] ∧ key ∈ next.1.book.endpoints ∧
      key ∉ next.1.unconnectedPeers ∧
      (next.1.thereafter first).registry.ids = [⟨2⟩] ∧
      key ∉ (next.1.thereafter first).unconnectedPeers ∧
      (next.1.thereafter second).registry.ids = [] ∧
      key ∈ (next.1.thereafter second).unconnectedPeers := by
  let settings : Settings := .standard (.ofMagic 7 1)
  let now : Moment := ⟨0, 0⟩
  let octets : FixedBytes 4 := ⟨[10, 0, 0, 1], rfl⟩
  let mapped : Endpoint := ⟨.v6 (Ip.wireOctets (.v4 octets)), 1⟩
  let key : Endpoint := ⟨.v4 octets, 20333⟩
  let version : Version :=
    Identity.version { Identity.ofMagic 7 2 with listenerPort := some key.port } 0 0
  let commands := connects .first now [(mapped, .inbound), (key, .outbound)]
  let left (number : Nat) : Choices × Moment × ManagerCommand :=
    (.first, now, .notice ⟨number⟩ .disconnected)
  let both : Manager := { start settings with
    registry := (Registry.empty.joinedBy mapped .inbound).joinedBy key .outbound }
  have hboth : after settings commands = both :=
    ((atRest_start settings).thereafter_connects rfl (by decide) (by decide) .first now).1
  obtain ⟨-, -, -, hfiled⟩ := discovery_avoids_connected settings commands
  rw [hboth] at hfiled
  have hoffers := hfiled .first now ⟨1⟩ version (.ofRemote mapped .inbound) key rfl
    (List.mem_cons_self) (by decide +kernel)
  have honce : ∀ numbers : List Nat, ∀ x ∈ numbers.map left, ∀ version',
      x.2.2 ≠ .notice ⟨1⟩ (.introduced version') :=
    fun _ => List.forall_mem_map.mpr fun _ _ _ heq =>
      PeerNotice.noConfusion (ManagerCommand.notice.inj heq).2
  let next : Manager := (both.step .first now (.notice ⟨1⟩ (.introduced version))).1
  have hids : next.registry.ids = [⟨1⟩, ⟨2⟩] := by decide +kernel
  have hids₁ : (next.thereafter ([1].map left)).registry.ids = [⟨2⟩] := by decide +kernel
  have hids₂ : (next.thereafter ([1, 2].map left)).registry.ids = [] := by decide +kernel
  refine ⟨commands, [1].map left, [1, 2].map left, version, key, ?_⟩
  rw [hboth]
  refine ⟨hids, by decide +kernel, ?_, hids₁, ?_, hids₂, ?_⟩
  · refine (hoffers [] (List.forall_mem_nil _)).1 ?_
    change ⟨1⟩ ∈ next.registry.ids
    rw [hids]
    exact List.mem_cons_self
  · have hgone : ⟨1⟩ ∉ (next.thereafter ([1].map left)).registry.ids := by
      rw [hids₁]
      decide
    have hother : (⟨2⟩, PeerEntry.ofRemote key .outbound) ∈
        (next.thereafter ([1].map left)).registry.peers := by decide +kernel
    intro hoffered
    exact ((hoffers _ (honce [1])).2 hgone).mp hoffered _ hother (.inl rfl)
  · have hgone : ⟨1⟩ ∉ (next.thereafter ([1, 2].map left)).registry.ids := by
      rw [hids₂]
      exact List.not_mem_nil
    refine ((hoffers _ (honce [1, 2])).2 hgone).mpr ?_
    rw [Registry.ids, List.map_eq_nil_iff] at hids₂
    rw [hids₂]
    exact List.forall_mem_nil _

end Manager

end PeerNet
