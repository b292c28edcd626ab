import PeerNet.Proofs.Manager.Shutdown
import PeerNet.Proofs.Peer.AddressBook

/-!
# Notices reach no further than their peer

Most of what a session tells the manager is about its own peer (`PeerNotice.isAboutSender`).  On
such a notice the manager changes what it has of this connection and leaves all others as they are
(`Registry.AgreesBut`); in the address book it files one record at most, under the address of the
peer, and only when it lets the peer stay.

Notices are on their way for a while, and a connection can be given up in the meantime.  Since its
number is not given out again (`Manager.AtRest.notMem_ids_thereafter`), what is still on its way
then finds nobody, and leaves the manager exactly as it was (`Manager.AtRest.step_of_absent`).
-/

namespace PeerNet

/-- Whether a notice is about the peer that it comes from, and about nothing else. -/
def PeerNotice.isAboutSender : PeerNotice → Bool
  | .introduced _ | .ready | .filterChanged _ | .remoteHeight _ | .disconnected => true
  | .suggested _ | .delivered _ | .addressRequest => false

namespace Registry

/-- The same registry but for one connection, which may have changed, or be gone: all others are as
they were, and so are the counts of all addresses but its own. -/
structure AgreesBut (id : PeerId) (r r' : Registry) : Prop where
  others : ∀ p, p.1 ≠ id → (p ∈ r'.peers ↔ p ∈ r.peers)
  counts : ∀ ip, (∀ e, (id, e) ∈ r.peers → e.remote.ip.normal ≠ ip) →
    r'.perAddress[ip]? = r.perAddress[ip]?
  lastId_eq : r'.lastId = r.lastId

variable {r : Registry} {id : PeerId} {f : PeerEntry → PeerEntry}

lemma agreesBut_self (id : PeerId) (r : Registry) : AgreesBut id r r :=
  ⟨fun _ _ => Iff.rfl, fun _ _ => rfl, rfl⟩

/-- Changing one connection changes nothing about the others. -/
lemma agreesBut_modify (r : Registry) (id : PeerId) (f : PeerEntry → PeerEntry) :
    AgreesBut id r (r.modify id f) :=
  ⟨fun _ hp => mem_modify_of_ne hp, fun _ _ => rfl, rfl⟩

/-- Nothing is found under a number just if no connection has it. -/
lemma get?_eq_none_iff : r.get? id = none ↔ id ∉ r.ids := by
  rw [get?, List.lookup_eq_none_iff, ids, List.mem_map]
  constructor
  · rintro hnone ⟨p, hp, rfl⟩
    simpa using hnone p hp
  · intro hnone p hp
    rw [bne_iff_ne]
    rintro rfl
    exact hnone ⟨p, hp, rfl⟩

/-- Taking one connection away takes it off the count of its own address alone. -/
lemma agreesBut_remove (r : Registry) (id : PeerId) : AgreesBut id r (r.remove id).1 := by
  cases hlive : r.get? id with
  | none =>
    rw [remove, hlive]
    exact agreesBut_self id r
  | some entry =>
    refine ⟨fun p hp => ?_, fun ip hip => ?_, ?_⟩
    · have hpeers : (r.remove id).1.peers = r.peers.filter (·.1 != id) := by rw [remove, hlive]
      rw [hpeers, List.mem_filter]
      exact and_iff_left (bne_iff_ne.mpr hp)
    · have hother : entry.address ≠ ip := hip entry (mem_of_get? hlive)
      rw [remove, hlive]
      dsimp only
      split_ifs <;> simp [Std.HashMap.getElem?_erase, Std.HashMap.getElem?_insert, hother]
    · rw [remove, hlive]

/-- A connection that is not there cannot change. -/
lemma modify_of_notMem (hgone : id ∉ r.ids) : r.modify id f = r := by
  have hsame : ∀ p ∈ r.peers, (if p.1 = id then (p.1, f p.2) else (p.1, p.2)) = p := by
    intro p hp
    exact if_neg fun hid => hgone (List.mem_map.mpr ⟨p, hp, hid⟩)
  have hpeers := List.map_congr_left hsame
  rw [List.map_id'] at hpeers
  exact congrArg (fun peers => { r with peers }) hpeers

/-- Taking away what is not there changes nothing. -/
lemma remove_of_notMem (hgone : id ∉ r.ids) : (r.remove id).1 = r := by
  rw [remove, get?_eq_none_iff.mpr hgone]

end Registry

namespace AddressBook

variable {b : AddressBook} {record : AddressRecord} {key : Endpoint} {now : Nat}

/-- Filing a record changes nothing, or what stands with its endpoint and nothing else. -/
lemma add_eq_or (b : AddressBook) (record : AddressRecord) (now : Nat) :
    (b.add record now).1 = b ∨
      ∃ key, key? record = some key ∧ (key, ⟨record, now⟩) ∈ (b.add record now).1.entries ∧
        ∀ p, p.1 ≠ key → (p ∈ (b.add record now).1.entries ↔ p ∈ b.entries) := by
  have hfiling := b.add_filing record now
  have hfiled : ∀ {key}, key? record = some key → b.size < b.maxSize ∨ key ∈ b.endpoints →
      (key, ⟨record, now⟩) ∈ (b.add record now).1.entries := mem_add
  generalize b.add record now = r at hfiling hfiled
  cases hfiling with
  | unreachable | crowdedOut => exact .inl rfl
  | @renewed key hkey hknown =>
    refine .inr ⟨key, hkey, hfiled hkey (.inr hknown), fun p hp => ?_⟩
    rw [List.mem_map]
    constructor
    · rintro ⟨q, hq, rfl⟩
      dsimp only at hp ⊢
      by_cases hsame : q.1 = key
      · rw [if_pos hsame] at hp
        exact absurd hsame hp
      · rwa [if_neg hsame]
    · intro hmem
      exact ⟨p, hmem, if_neg hp⟩
  | @appended key hkey _ hroom =>
    refine .inr ⟨key, hkey, hfiled hkey (.inl hroom), fun p hp => ?_⟩
    rw [List.mem_append, List.mem_singleton]
    refine or_iff_left fun heq => hp ?_
    rw [heq]

/-- The record of an address is filed under that address. -/
lemma ip_of_key?_ofIp {ip : Ip} {timestamp : UInt32} {cs : List Capability}
    (hkey : key? (.ofIp ip timestamp cs) = some key) : key.ip = ip.normal := by
  rw [key?] at hkey
  obtain ⟨-, hkey⟩ := Option.ite_none_left_eq_some.mp hkey
  obtain rfl := Option.some.inj hkey
  exact Ip.normal_normal ip

end AddressBook

namespace Manager

variable {m : Manager} {choices : Choices} {moment : Moment} {peer : PeerId} {n : PeerNotice}
  {settings : Settings}

/-! ## A notice -/

/-- The book after a peer may stay: it is the same, or has the record of the peer. -/
lemma book_allow_eq_or (m : Manager) (peer : PeerId) (version : Version) (now : Nat) :
    (m.allow peer version now).1.book = m.book ∨
      ∃ entry, m.registry.get? peer = some entry ∧ (m.allow peer version now).2 = .ok () ∧
        (m.allow peer version now).1.book =
          (m.book.add (.ofIp entry.remote.ip version.timestamp version.capabilities) now).1 := by
  unfold allow
  split
  · exact .inl rfl
  · split
    · exact .inl rfl
    · split
      · exact .inl rfl
      · next entry hlive =>
        split
        · exact .inl rfl
        · by_cases hlistener : version.listenerPort.isSome
          · exact .inr ⟨entry, hlive, rfl, if_pos hlistener⟩
          · exact .inl (if_neg hlistener)

/-- What a notice makes of the registry concerns its peer. -/
lemma onNotice_agreesBut (m : Manager) (choices : Choices) (moment : Moment) (peer : PeerId)
    (n : PeerNotice) : m.registry.AgreesBut peer (m.onNotice choices moment peer n).1.registry := by
  unfold onNotice
  cases n with
  | introduced version =>
    have hjudges := m.judges_allow peer version moment.now
    dsimp only
    generalize m.allow peer version moment.now = judged at hjudges
    cases hjudges with
    | refused => exact Registry.agreesBut_self ..
    | accepted =>
      dsimp only
      exact Registry.agreesBut_modify ..
  | remoteHeight height =>
    dsimp only
    unfold raiseHeight
    split
    · exact Registry.agreesBut_self ..
    · split
      · dsimp only
        exact Registry.agreesBut_modify ..
      · exact Registry.agreesBut_self ..
  | ready | filterChanged =>
    dsimp only
    exact Registry.agreesBut_modify ..
  | disconnected => exact Registry.agreesBut_remove ..
  | suggested | delivered | addressRequest => exact Registry.agreesBut_self ..

/-- Of the notices about a peer only one has a part in the address book. -/
lemma book_onNotice_eq_or (m : Manager) (choices : Choices) (moment : Moment) (peer : PeerId)
    (habout : n.isAboutSender = true) :
    (m.onNotice choices moment peer n).1.book = m.book ∨
      ∃ entry version, m.registry.get? peer = some entry ∧ n = .introduced version ∧
        (m.onNotice choices moment peer n).2 = [.answer peer (.verdict (.ok ()))] ∧
        (m.onNotice choices moment peer n).1.book =
          (m.book.add (.ofIp entry.remote.ip version.timestamp version.capabilities)
            moment.now).1 := by
  cases n with
  | introduced version =>
    refine (m.book_allow_eq_or peer version moment.now).imp_right ?_
    rintro ⟨entry, hlive, hallowed, hbook⟩
    refine ⟨entry, version, hlive, rfl, ?_, hbook⟩
    rw [onNotice, ← hallowed]
  | remoteHeight height =>
    rw [onNotice, raiseHeight]
    split
    · exact .inl rfl
    · split <;> exact .inl rfl
  | ready | filterChanged | disconnected => exact .inl rfl
  | suggested | delivered | addressRequest => exact Bool.noConfusion habout

/-- What the manager does on a notice of a peer that is not live: nothing, and if it is asked
whether the peer may stay it refuses. -/
lemma onNotice_of_absent (hgone : peer ∉ m.registry.ids) (habout : n.isAboutSender = true)
    (choices : Choices) (moment : Moment) :
    (m.onNotice choices moment peer n).1 = m ∧
      ((m.onNotice choices moment peer n).2 = [] ∨
        ∃ reason, (m.onNotice choices moment peer n).2 =
          [.answer peer (.verdict (.error reason))]) ∧
      ∀ version, n = .introduced version → (m.onNotice choices moment peer n).2 ≠ [] := by
  have hnone := Registry.get?_eq_none_iff.mpr hgone
  cases n with
  | introduced version =>
    have hjudges := m.judges_allow peer version moment.now
    unfold onNotice
    dsimp only
    generalize m.allow peer version moment.now = judged at hjudges
    cases hjudges with
    | refused => exact ⟨rfl, .inr ⟨_, rfl⟩, fun _ _ => List.cons_ne_nil _ _⟩
    | accepted _ _ hlive => exact absurd (hlive.symm.trans hnone) (Option.some_ne_none _)
  | ready | filterChanged =>
    refine ⟨?_, .inl rfl, fun _ heq => PeerNotice.noConfusion heq⟩
    rw [onNotice, Registry.modify_of_notMem hgone]
  | remoteHeight height =>
    rw [onNotice, raiseHeight, hnone]
    exact ⟨rfl, .inl rfl, fun _ heq => PeerNotice.noConfusion heq⟩
  | disconnected =>
    refine ⟨?_, .inl rfl, fun _ heq => PeerNotice.noConfusion heq⟩
    rw [onNotice, Registry.remove_of_notMem hgone]
  | suggested | delivered | addressRequest => exact Bool.noConfusion habout

/-- A notice leaves all connections alone but that of its own session. -/
lemma step_agreesBut (m : Manager) (choices : Choices) (moment : Moment) (peer : PeerId)
    (n : PeerNotice) :
    m.registry.AgreesBut peer (m.step choices moment (.notice peer n)).1.registry := by
  cases hlive : m.isStopped with
  | true =>
    rw [step_of_stopped hlive]
    exact Registry.agreesBut_self ..
  | false =>
    rw [step_of_live hlive]
    dsimp only
    rw [(stopIfDone_eq _).1]
    exact m.onNotice_agreesBut choices moment peer n

/-- After a step the book is the same, or a peer may stay and what stands with its endpoint is new.
-/
lemma book_step_eq_or (m : Manager) (choices : Choices) (moment : Moment) (peer : PeerId)
    (habout : n.isAboutSender = true) :
    (m.step choices moment (.notice peer n)).1.book = m.book ∨ ∃ entry version key,
      m.registry.get? peer = some entry ∧ n = .introduced version ∧
      .answer peer (.verdict (.ok ())) ∈ (m.step choices moment (.notice peer n)).2 ∧
      key.ip = entry.remote.ip.normal ∧
      (key, ⟨.ofIp entry.remote.ip version.timestamp version.capabilities, moment.now⟩) ∈
        (m.step choices moment (.notice peer n)).1.book.entries ∧
      ∀ p, p.1 ≠ key →
        (p ∈ (m.step choices moment (.notice peer n)).1.book.entries ↔ p ∈ m.book.entries) := by
  cases hlive : m.isStopped with
  | true =>
    rw [step_of_stopped hlive]
    exact .inl rfl
  | false =>
    rw [step_of_live hlive]
    dsimp only
    rw [(stopIfDone_eq _).2.1, handle]
    refine (m.book_onNotice_eq_or choices moment peer habout).elim .inl ?_
    rintro ⟨entry, version, hentry, hn, hanswer, hbook⟩
    rw [hanswer, hbook]
    refine (m.book.add_eq_or _ moment.now).imp_right ?_
    rintro ⟨key, hkey, hfiled, hothers⟩
    refine ⟨entry, version, key, hentry, hn, List.mem_append_left _ List.mem_cons_self,
      AddressBook.ip_of_key?_ofIp hkey, hfiled, hothers⟩

/-! ## Between two commands -/

/-- What holds of a manager between two commands: it tells its peers apart, it has no connections if
it has stopped, and it is not due to stop. -/
structure AtRest (settings : Settings) (m : Manager) : Prop where
  discerning : m.Discerning settings
  vacant : m.Vacant
  settled : m.stopIfDone = (m, [])

/-- A manager that was due to stop has stopped. -/
lemma stopIfDone_stopIfDone (m : Manager) :
    m.stopIfDone.1.stopIfDone = (m.stopIfDone.1, []) := by
  cases hphase : m.phase with
  | running | stopped =>
    have hsame : m.stopIfDone = (m, []) := by rw [stopIfDone, hphase]
    rw [hsame]
    exact hsame
  | closing callers =>
    by_cases hsize : m.registry.size = 0
    · have hstopped : m.stopIfDone = ({ m with phase := .stopped }, [.stopped callers]) := by
        rw [stopIfDone, hphase]
        exact if_pos hsize
      rw [hstopped]
      rfl
    · have hsame : m.stopIfDone = (m, []) := by
        rw [stopIfDone, hphase]
        exact if_neg hsize
      rw [hsame]
      exact hsame

/-- A manager that starts is at rest. -/
lemma atRest_start (settings : Settings) : (start settings).AtRest settings :=
  ⟨discerning_start settings, fun h => Bool.noConfusion h, rfl⟩

/-- After every command a manager is at rest again. -/
lemma AtRest.step (h : m.AtRest settings) (choices : Choices) (moment : Moment)
    (c : ManagerCommand) : (m.step choices moment c).1.AtRest settings := by
  refine ⟨h.discerning.step choices moment c, h.vacant.step choices moment c, ?_⟩
  cases hlive : m.isStopped with
  | true =>
    rw [step_of_stopped hlive]
    exact h.settled
  | false =>
    rw [step_of_live hlive]
    exact stopIfDone_stopIfDone _

/-- After more commands a manager is at rest again. -/
lemma AtRest.thereafter (h : m.AtRest settings)
    (commands : List (Choices × Moment × ManagerCommand)) :
    (m.thereafter commands).AtRest settings :=
  List.foldlRecOn commands _ h fun _ hm (choices, moment, c) _ => hm.step choices moment c

/-- After all commands a manager is at rest. -/
lemma atRest_after (settings : Settings)
    (commands : List (Choices × Moment × ManagerCommand)) :
    (after settings commands).AtRest settings :=
  (atRest_start settings).thereafter commands

/-- A manager that runs and has room accepts a connection, and is at rest again. -/
lemma AtRest.step_connect_of_room (h : m.AtRest settings) (hrunning : m.isRunning = true)
    {remote : Endpoint} (hroom : m.registry.size < m.settings.maxConnections)
    (hshare : m.registry.countFrom remote.ip.normal < m.settings.maxConnectionsPerAddress)
    (choices : Choices) (moment : Moment) (direction : Direction) :
    m.step choices moment (.connect remote direction) =
        ({ m with registry := m.registry.joinedBy remote direction },
          [.accepted ⟨m.registry.lastId + 1⟩]) ∧
      ({ m with registry := m.registry.joinedBy remote direction } : Manager).AtRest settings := by
  have hjoined := Manager.step_connect_of_room hrunning h.discerning.consistent hroom hshare choices
    moment direction
  have hrest := h.step choices moment (.connect remote direction)
  rw [hjoined] at hrest
  exact ⟨hjoined, hrest⟩

/-- The commands by which streams ask to become connections. -/
def connects (choices : Choices) (moment : Moment) (streams : List (Endpoint × Direction)) :
    List (Choices × Moment × ManagerCommand) :=
  streams.map fun s => (choices, moment, .connect s.1 s.2)

/-- Streams that find room become connections, one after the other, and nothing else happens. -/
lemma AtRest.thereafter_connects (h : m.AtRest settings) (hrunning : m.isRunning = true)
    {streams : List (Endpoint × Direction)}
    (hroom : m.registry.size + streams.length ≤ m.settings.maxConnections)
    (hshare : m.registry.size + streams.length ≤ m.settings.maxConnectionsPerAddress)
    (choices : Choices) (moment : Moment) :
    m.thereafter (connects choices moment streams) =
        { m with registry := streams.foldl (fun r s => r.joinedBy s.1 s.2) m.registry } ∧
      ∀ effect ∈ m.effectsOver (connects choices moment streams), ∃ id, effect = .accepted id := by
  induction streams generalizing m with
  | nil => exact ⟨rfl, List.forall_mem_nil _⟩
  | cons s rest ih =>
    obtain ⟨remote, direction⟩ := s
    rw [List.length_cons] at hroom hshare
    have hcount : m.registry.countFrom remote.ip.normal ≤ m.registry.size := List.countP_le_length
    have hplace : m.registry.size < m.settings.maxConnections := by omega
    have hportion : m.registry.countFrom remote.ip.normal <
        m.settings.maxConnectionsPerAddress := by omega
    obtain ⟨hstep, hrest⟩ :=
      h.step_connect_of_room hrunning hplace hportion choices moment direction
    have hsize : (m.registry.joinedBy remote direction).size = m.registry.size + 1 :=
      List.length_append
    obtain ⟨hend, haccepted⟩ := ih hrest hrunning
      (by dsimp only; rw [hsize]; omega) (by dsimp only; rw [hsize]; omega)
    rw [connects, List.map_cons, thereafter_cons, effectsOver, hstep]
    refine ⟨hend, List.forall_mem_append.mpr ⟨?_, haccepted⟩⟩
    exact List.forall_mem_singleton.mpr ⟨_, rfl⟩

lemma effectsOver_append (m : Manager)
    (commands later : List (Choices × Moment × ManagerCommand)) :
    m.effectsOver (commands ++ later) =
      m.effectsOver commands ++ (m.thereafter commands).effectsOver later := by
  induction commands generalizing m with
  | nil => rfl
  | cons x rest ih =>
    obtain ⟨choices, moment, c⟩ := x
    rw [List.cons_append, effectsOver, effectsOver, ih, List.append_assoc, thereafter_cons]

lemma after_append (settings : Settings)
    (commands later : List (Choices × Moment × ManagerCommand)) :
    after settings (commands ++ later) = (after settings commands).thereafter later :=
  List.foldl_append

/-- A manager with a live connection has not stopped. -/
lemma AtRest.isStopped_of_live (h : m.AtRest settings) (hlive : peer ∈ m.registry.ids) :
    m.isStopped = false := by
  refine Bool.eq_false_iff.mpr fun hstopped => ?_
  rw [Registry.ids, h.vacant hstopped] at hlive
  exact List.not_mem_nil hlive

/-- A command that is not a notice of a peer leaves this peer alone, unless it made it a connection.
-/
lemma AtRest.mem_of_mem_step (h : m.AtRest settings) {c : ManagerCommand}
    (hother : ∀ n, c ≠ .notice peer n) (choices : Choices) (moment : Moment) {e : PeerEntry}
    (hmem : (peer, e) ∈ (m.step choices moment c).1.registry.peers) :
    (peer, e) ∈ m.registry.peers ∨ m.registry.lastId < peer.number := by
  cases hlive : m.isStopped with
  | true =>
    rw [step_of_stopped hlive] at hmem
    exact .inl hmem
  | false =>
    rw [step_of_live hlive] at hmem
    dsimp only at hmem
    rw [(stopIfDone_eq _).1] at hmem
    cases c with
    | connect remote direction =>
      have hanswers := m.answers_connect choices remote direction
      rw [handle] at hmem
      generalize m.connect choices remote direction = r at hanswers hmem
      cases hanswers with
      | late | silent | notified => exact .inl hmem
      | accepted _ hregistered =>
        have hregistration := h.discerning.consistent.registration remote direction
          m.settings.maxConnections m.settings.maxConnectionsPerAddress
        rw [hregistered] at hregistration
        cases hregistration with
        | admitted _ _ hpeers =>
          dsimp only at hmem
          rw [hpeers, List.mem_append, List.mem_singleton] at hmem
          refine hmem.imp_right fun hnew => ?_
          rw [(Prod.mk.inj hnew).1]
          exact Nat.lt_succ_self _
    | notice id n =>
      have hne : peer ≠ id := by
        rintro rfl
        exact hother n rfl
      exact .inl (((m.onNotice_agreesBut choices moment id n).others _ hne).mp hmem)
    | tick =>
      rw [handle] at hmem
      split at hmem
      · obtain ⟨dialing, hdiscover⟩ := m.discover_eq choices
        rw [hdiscover] at hmem
        exact .inl hmem
      · exact .inl hmem
    | shutdown caller =>
      rw [handle, beginShutdown] at hmem
      split at hmem <;> exact .inl hmem
    | addPeers | relay | broadcast | inspect | dialFinished | rejectionFinished => exact .inl hmem

/-! ## Peers that are gone -/

/-- The number of a live connection has been given out. -/
lemma AtRest.number_le_lastId_step (h : m.AtRest settings) (hlive : peer ∈ m.registry.ids)
    (choices : Choices) (moment : Moment) (c : ManagerCommand) :
    peer.number ≤ (m.step choices moment c).1.registry.lastId :=
  (h.discerning.consistent.bounded peer hlive).trans
    (step_revision h.discerning.consistent choices moment c).lastId_le

/-- A number that was given out is given to nobody else. -/
lemma AtRest.notMem_ids_step (h : m.AtRest settings) (hissued : peer.number ≤ m.registry.lastId)
    (hgone : peer ∉ m.registry.ids) (choices : Choices) (moment : Moment) (c : ManagerCommand) :
    peer ∉ (m.step choices moment c).1.registry.ids := by
  have hrevision := step_revision h.discerning.consistent choices moment c
  generalize m.step choices moment c = r at hrevision
  cases hrevision with
  | admitted hpeers =>
    rw [Registry.ids, hpeers, List.map_append, List.map_singleton, List.mem_append,
      List.mem_singleton]
    rintro (hold | rfl)
    · exact hgone hold
    · exact Nat.not_succ_le_self _ hissued
  | identified _ _ _ _ hregistry => rwa [hregistry, Registry.ids_modify]
  | routine _ hshrinks => exact fun hlive => hgone (hshrinks.ids_sublist.subset hlive)

/-- A number that was given out and is live no more never becomes live again. -/
lemma AtRest.notMem_ids_thereafter (h : m.AtRest settings)
    (hissued : peer.number ≤ m.registry.lastId) (hgone : peer ∉ m.registry.ids)
    (commands : List (Choices × Moment × ManagerCommand)) :
    peer ∉ (m.thereafter commands).registry.ids := by
  induction commands generalizing m with
  | nil => exact hgone
  | cons x rest ih =>
    obtain ⟨choices, moment, c⟩ := x
    have hlast := (step_revision h.discerning.consistent choices moment c).lastId_le
    exact ih (h.step choices moment c) (hissued.trans hlast)
      (h.notMem_ids_step hissued hgone choices moment c)

/-- Numbers are given out upwards. -/
lemma AtRest.lastId_le_thereafter (h : m.AtRest settings)
    (commands : List (Choices × Moment × ManagerCommand)) :
    m.registry.lastId ≤ (m.thereafter commands).registry.lastId := by
  induction commands generalizing m with
  | nil => exact le_rfl
  | cons x rest ih =>
    obtain ⟨choices, moment, c⟩ := x
    have hlast := (step_revision h.discerning.consistent choices moment c).lastId_le
    exact hlast.trans (ih (h.step choices moment c))

/-- A notice of a peer that is not live leaves the manager as it was. -/
lemma AtRest.step_of_absent (h : m.AtRest settings) (hgone : peer ∉ m.registry.ids)
    (habout : n.isAboutSender = true) (choices : Choices) (moment : Moment) :
    (m.step choices moment (.notice peer n)).1 = m ∧
      (∀ effect ∈ (m.step choices moment (.notice peer n)).2,
        ∃ reason, effect = .answer peer (.verdict (.error reason))) ∧
      (m.isStopped = false → ∀ version, n = .introduced version →
        ∃ reason, .answer peer (.verdict (.error reason)) ∈
          (m.step choices moment (.notice peer n)).2) := by
  cases hlive : m.isStopped with
  | true =>
    rw [step_of_stopped hlive]
    exact ⟨rfl, List.forall_mem_nil _, fun h => Bool.noConfusion h⟩
  | false =>
    obtain ⟨hsame, heffects, hanswered⟩ := onNotice_of_absent hgone habout choices moment
    have hstep : m.step choices moment (.notice peer n) =
        (m, (m.onNotice choices moment peer n).2) := by
      rw [step_of_live hlive, handle, hsame, h.settled, List.append_nil]
    rw [hstep]
    refine ⟨rfl, ?_, fun _ version hn => ?_⟩
    · rcases heffects with hnone | ⟨reason, hrefused⟩
      · rw [hnone]
        exact List.forall_mem_nil _
      · rw [hrefused]
        exact List.forall_mem_singleton.mpr ⟨reason, rfl⟩
    · obtain ⟨reason, hrefused⟩ := heffects.resolve_left (hanswered version hn)
      exact ⟨reason, hrefused ▸ List.mem_singleton.mpr rfl⟩

/-- Whatever commands a manager took, a notice about a peer changes nothing of the other
connections, nor the counts of other addresses, nor which number is given out next.  The address
book stays as it is, unless the peer may stay from now on; then what stands there with one endpoint,
under the address of the peer, may be new.  On a notice of a peer that is not live nothing changes
at all and nobody is told anything, but that the peer may not stay.  A connection that is gone does
not come back, so a notice of it that is heard late might as well not have been told: with it or
without it the manager goes on in the same way, also if other connections from the same address are
live by then. -/
theorem notices_reach_only_sender (settings : Settings)
    (commands : List (Choices × Moment × ManagerCommand)) :
    let m := after settings commands
    (∀ choices moment peer n, n.isAboutSender = true →
      let next := m.step choices moment (.notice peer n)
      m.registry.AgreesBut peer next.1.registry ∧
      (next.1.book = m.book ∨ ∃ entry version key,
        m.registry.get? peer = some entry ∧ n = .introduced version ∧
        .answer peer (.verdict (.ok ())) ∈ next.2 ∧ key.ip = entry.remote.ip.normal ∧
        (key, ⟨.ofIp entry.remote.ip version.timestamp version.capabilities, moment.now⟩) ∈
          next.1.book.entries ∧
        ∀ p, p.1 ≠ key → (p ∈ next.1.book.entries ↔ p ∈ m.book.entries)) ∧
      (peer ∉ m.registry.ids →
        next.1 = m ∧
        (∀ effect ∈ next.2, ∃ reason, effect = .answer peer (.verdict (.error reason))) ∧
        (m.isStopped = false → ∀ version, n = .introduced version →
          ∃ reason, .answer peer (.verdict (.error reason)) ∈ next.2))) ∧
    ∀ peer ∈ m.registry.ids, ∀ later, peer ∉ (m.thereafter later).registry.ids →
      ∀ more choices moment n rest, n.isAboutSender = true →
        m.thereafter (later ++ more ++ (choices, moment, .notice peer n) :: rest) =
          m.thereafter (later ++ more ++ rest) := by
  intro m
  have hm : m.AtRest settings := atRest_after settings commands
  refine ⟨fun choices moment peer n habout => ?_, ?_⟩
  · intro next
    refine ⟨m.step_agreesBut choices moment peer n, ?_, ?_⟩
    · exact m.book_step_eq_or choices moment peer habout
    · exact fun hgone => hm.step_of_absent hgone habout choices moment
  · intro peer hlive later hgone more choices moment n rest habout
    have hissued : peer.number ≤ (m.thereafter later).registry.lastId :=
      (hm.discerning.consistent.bounded peer hlive).trans (hm.lastId_le_thereafter later)
    have hstays := (hm.thereafter later).notMem_ids_thereafter hissued hgone more
    rw [← thereafter_append] at hstays
    have hlate := ((hm.thereafter (later ++ more)).step_of_absent hstays habout choices moment).1
    rw [m.thereafter_append (later ++ more), thereafter_cons, hlate, ← thereafter_append]

/-- A peer leaves, another comes from its address, spelled in another way, and the notices of the
first that are heard then are without effect on the second. -/
theorem notices_reach_only_sender_of_same_address :
    ∃ (commands later : List (Choices × Moment × ManagerCommand)) (version : Version)
      (listener : Endpoint),
      let m := after (.standard (.ofMagic 7 1)) commands
      let next := m.step .first ⟨0, 0⟩ (.notice ⟨1⟩ (.introduced version))
      m.registry.ids = [⟨1⟩] ∧ (m.thereafter later).registry.ids = [⟨2⟩] ∧
      next.1.book.endpoints = [listener] ∧ m.registry.AgreesBut ⟨1⟩ next.1.registry ∧
      ∀ rest, m.thereafter (later ++ [] ++ (.first, ⟨0, 0⟩, .notice ⟨1⟩ .ready) :: rest) =
        m.thereafter (later ++ [] ++ rest) := by
  let settings : Settings := .standard (.ofMagic 7 1)
  let version : Version :=
    Identity.version { Identity.ofMagic 7 2 with listenerPort := some 20333 } 0 0
  let now : Moment := ⟨0, 0⟩
  let octets : FixedBytes 4 := ⟨[10, 0, 0, 1], rfl⟩
  let plain : Endpoint := ⟨.v4 octets, 1⟩
  let mapped : Endpoint := ⟨.v6 (Ip.wireOctets (.v4 octets)), 2⟩
  let commands := connects .first now [(plain, .inbound)]
  let later : List (Choices × Moment × ManagerCommand) :=
    [(.first, now, .notice ⟨1⟩ .disconnected), (.first, now, .connect mapped .inbound)]
  let m : Manager := after settings commands
  have hm : m = { start settings with registry := Registry.empty.joinedBy plain .inbound } :=
    ((atRest_start settings).thereafter_connects rfl (by decide) (by decide) .first now).1
  let left : Manager := (m.step .first now (.notice ⟨1⟩ .disconnected)).1
  have hleft : left.registry.peers = [] ∧ left.registry.lastId = 1 ∧ left.isRunning = true ∧
      left.settings = settings := by
    rw [show left = (m.step .first now (.notice ⟨1⟩ .disconnected)).1 from rfl, hm]
    exact ⟨rfl, rfl, rfl, rfl⟩
  obtain ⟨hnone, hlast, hrunning, hsettings⟩ := hleft
  have hconsistent : left.registry.Consistent :=
    ((atRest_after settings commands).step .first now _).discerning.consistent
  have hroom : left.registry.size < left.settings.maxConnections := by
    rw [Registry.size, hnone, hsettings]
    decide
  have hshare : left.registry.countFrom mapped.ip.normal <
      left.settings.maxConnectionsPerAddress := by
    rw [Registry.countFrom, hnone, hsettings]
    decide
  have hsecond := step_connect_of_room hrunning hconsistent hroom hshare .first now .inbound
  have hlive : m.registry.ids = [⟨1⟩] := by rw [hm]; rfl
  have hback : (m.thereafter later).registry.ids = [⟨2⟩] := by
    have hend : m.thereafter later = (left.step .first now (.connect mapped .inbound)).1 := rfl
    rw [hend, hsecond, Registry.ids, Registry.joinedBy, hnone, hlast]
    rfl
  obtain ⟨hnotice, hgone⟩ := notices_reach_only_sender settings commands
  refine ⟨commands, later, version, ⟨plain.ip, 20333⟩, hlive, hback, ?_,
    (hnotice .first now ⟨1⟩ (.introduced version) rfl).1, fun rest => ?_⟩
  · change (m.step .first now (.notice ⟨1⟩ (.introduced version))).1.book.endpoints = _
    rw [hm]
    rfl
  · refine hgone ⟨1⟩ ?_ later ?_ [] .first now .ready rest rfl
    · exact hlive ▸ List.mem_singleton.mpr rfl
    · change ⟨1⟩ ∉ (m.thereafter later).registry.ids
      rw [hback]
      decide

end Manager

end PeerNet
