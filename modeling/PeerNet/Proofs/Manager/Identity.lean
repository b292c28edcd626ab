import PeerNet.Proofs.Manager.Step

/-!
# Who the peers are

A peer says who it is in its version, and the manager decides whether it may stay
(`Manager.Judges`): it may if it is of the same network, is not the node itself, and no other live
connection from its address has announced its nonce.  The connection is known by the version from
then on.

Of all commands that is the only one that makes a version known.  One other adds a connection, of
which no version is known yet, and the rest take connections away or change something else about
them (`Manager.Revision`).  So what the manager saw to when it accepted a version
(`Registry.Identified`) stays true of all versions that are known.
-/

namespace PeerNet

namespace PeerEntry

/-- A connection whose peer is known by its version. -/
def knownAs (e : PeerEntry) (version : Version) : PeerEntry := { e with version := some version }

/-- A connection before and after a change that leaves alone where it leads and who its peer is; it
becomes ready only by being greeted. -/
structure Keeps (greeted : Prop) (e e' : PeerEntry) : Prop where
  remote_eq : e'.remote = e.remote
  version_eq : e'.version = e.version
  ready : e'.ready = true → e.ready = true ∨ greeted

/-- A connection that does not change keeps what it is. -/
lemma Keeps.refl (greeted : Prop) (e : PeerEntry) : Keeps greeted e e := ⟨rfl, rfl, .inl⟩

/-- A connection keeps its address: neither its far end nor its version changes. -/
lemma Keeps.address_eq {greeted : Prop} {e e' : PeerEntry} (h : Keeps greeted e e') :
    e'.address = e.address := by
  unfold address
  rw [h.remote_eq]

end PeerEntry

namespace Registry

variable {r r' : Registry} {id : PeerId} {entry : PeerEntry} {greeted : Option PeerId}
  {identity : Identity}

/-! ## What is known of a connection -/

/-- What is found under a number is among the connections. -/
lemma mem_of_get? (h : r.get? id = some entry) : (id, entry) ∈ r.peers := by
  obtain ⟨before, behind, hpeers⟩ := exists_append_of_get? h
  rw [hpeers]
  exact List.mem_append_right _ List.mem_cons_self

/-- Since no number is given out twice, all that is known under it is known of one connection. -/
lemma Consistent.get?_of_mem (h : r.Consistent) (hmem : (id, entry) ∈ r.peers) :
    r.get? id = some entry := by
  obtain ⟨before, behind, hpeers⟩ := List.append_of_mem hmem
  refine List.lookup_eq_some_iff.mpr ⟨before, behind, hpeers, ?_⟩
  intro p hp
  have hnodup := h.nodup_ids
  rw [ids, hpeers, List.map_append, List.map_cons, List.nodup_middle, List.nodup_cons] at hnodup
  have hne : id ≠ p.1 := by
    rintro rfl
    exact hnodup.1 (List.mem_append_left _ (List.mem_map.mpr ⟨p, hp, rfl⟩))
  exact bne_iff_ne.mpr hne

/-- No number has two connections. -/
lemma Consistent.eq_of_mem (h : r.Consistent) {e e' : PeerEntry} (hmem : (id, e) ∈ r.peers)
    (hmem' : (id, e') ∈ r.peers) : e = e' := by
  have hget := h.get?_of_mem hmem
  rw [h.get?_of_mem hmem'] at hget
  exact (Option.some.inj hget).symm

/-- A change concerns the connection with its number and no other. -/
lemma mem_modify {f : PeerEntry → PeerEntry} {p : PeerId × PeerEntry} :
    p ∈ (r.modify id f).peers ↔ ∃ e, (p.1, e) ∈ r.peers ∧ p.2 = if p.1 = id then f e else e := by
  obtain ⟨i, e'⟩ := p
  unfold modify
  rw [List.mem_map]
  constructor
  · rintro ⟨⟨j, e⟩, hmem, heq⟩
    dsimp only at heq
    by_cases hid : j = id
    · rw [if_pos hid] at heq
      cases heq
      exact ⟨e, hmem, (if_pos hid).symm⟩
    · rw [if_neg hid] at heq
      cases heq
      exact ⟨_, hmem, (if_neg hid).symm⟩
  · rintro ⟨e, hmem, heq⟩
    refine ⟨(i, e), hmem, ?_⟩
    change (if i = id then (i, f e) else (i, e)) = (i, e')
    dsimp only at heq
    rw [heq]
    split_ifs <;> rfl

/-- What stands under the changed number comes of a connection that stood there. -/
lemma exists_of_mem_modify_self {f : PeerEntry → PeerEntry} {e' : PeerEntry}
    (h : (id, e') ∈ (r.modify id f).peers) : ∃ e, (id, e) ∈ r.peers ∧ e' = f e := by
  obtain ⟨e, hmem, heq⟩ := mem_modify.mp h
  exact ⟨e, hmem, heq.trans (if_pos rfl)⟩

/-- Changing one connection leaves all others. -/
lemma mem_modify_of_ne {f : PeerEntry → PeerEntry} {p : PeerId × PeerEntry} (hne : p.1 ≠ id) :
    p ∈ (r.modify id f).peers ↔ p ∈ r.peers := by
  rw [mem_modify]
  constructor
  · rintro ⟨e, hmem, heq⟩
    rw [if_neg hne] at heq
    rwa [← heq] at hmem
  · intro hmem
    exact ⟨p.2, hmem, (if_neg hne).symm⟩

/-- Whether a nonce is taken: what the registry looks for. -/
lemma isDuplicate_iff {ip : Ip} {nonce : UInt32} :
    r.isDuplicate id ip nonce = true ↔
      ∃ p ∈ r.peers, p.1 ≠ id ∧ p.2.address = ip.normal ∧ ∃ w ∈ p.2.version, w.nonce = nonce := by
  simp [isDuplicate, Option.any_eq_true, and_assoc]

/-! ## Changes that make nobody known -/

/-- All connections of a registry are connections of an earlier one and keep what they were. -/
def Recalls (r : Registry) (greeted : Option PeerId) (r' : Registry) : Prop :=
  ∀ p ∈ r'.peers, ∃ e, (p.1, e) ∈ r.peers ∧ PeerEntry.Keeps (greeted = some p.1) e p.2

lemma Recalls.refl (r : Registry) (greeted : Option PeerId) : r.Recalls greeted r :=
  fun p hp => ⟨p.2, hp, .refl _ _⟩

/-- Changing one connection is recalled if that keeps what it is. -/
lemma recalls_modify (r : Registry) (id : PeerId) {f : PeerEntry → PeerEntry}
    (hf : ∀ e, PeerEntry.Keeps (greeted = some id) e (f e)) :
    r.Recalls greeted (r.modify id f) := by
  intro p hp
  obtain ⟨e, hmem, heq⟩ := mem_modify.mp hp
  refine ⟨e, hmem, ?_⟩
  rw [heq]
  split_ifs with hid
  · rw [hid]
    exact hf e
  · exact .refl _ _

/-- Where a connection is taken away, those that are left were there before. -/
lemma mem_of_mem_remove {p : PeerId × PeerEntry} (hp : p ∈ (r.remove id).1.peers) :
    p ∈ r.peers := by
  unfold remove at hp
  split at hp
  · exact hp
  · exact (List.mem_filter.mp hp).1

/-- Taking a connection away changes nothing about the others. -/
lemma recalls_remove (r : Registry) (id : PeerId) (greeted : Option PeerId) :
    r.Recalls greeted (r.remove id).1 :=
  fun p hp => ⟨p.2, mem_of_mem_remove hp, .refl _ _⟩

/-! ## Identified peers -/

/-- Every peer that is known by its version is of the network of the node and not the node itself,
and no two of them come from one address with one nonce. -/
structure Identified (identity : Identity) (r : Registry) : Prop where
  foreign : ∀ p ∈ r.peers, ∀ v ∈ p.2.version,
    v.magic = identity.magic ∧ v.nonce ≠ identity.nonce
  distinct : ∀ p ∈ r.peers, ∀ q ∈ r.peers, p.1 ≠ q.1 → p.2.address = q.2.address →
    ∀ v ∈ p.2.version, ∀ w ∈ q.2.version, v.nonce ≠ w.nonce

/-- Without connections, all of them can be told apart. -/
lemma identified_empty (identity : Identity) : empty.Identified identity :=
  ⟨List.forall_mem_nil _, List.forall_mem_nil _⟩

/-- Connections that can be told apart still can be after a change that keeps what they are. -/
lemma Identified.of_recalls (h : r.Identified identity) (hrecalls : r.Recalls greeted r') :
    r'.Identified identity := by
  constructor
  · intro p hp v hv
    obtain ⟨e, hmem, hkeeps⟩ := hrecalls p hp
    rw [hkeeps.version_eq] at hv
    exact h.foreign _ hmem v hv
  · intro p hp q hq hne haddress v hv w hw
    obtain ⟨e, hmem, hkeeps⟩ := hrecalls p hp
    obtain ⟨e', hmem', hkeeps'⟩ := hrecalls q hq
    rw [hkeeps.address_eq, hkeeps'.address_eq] at haddress
    rw [hkeeps.version_eq] at hv
    rw [hkeeps'.version_eq] at hw
    exact h.distinct _ hmem _ hmem' hne haddress v hv w hw

/-- Nothing is known yet of a new connection. -/
lemma Identified.of_append (h : r.Identified identity) {remote : Endpoint} {direction : Direction}
    (hpeers : r'.peers = r.peers ++ [(id, .ofRemote remote direction)]) :
    r'.Identified identity := by
  have hold : ∀ p ∈ r'.peers, ∀ v ∈ p.2.version, p ∈ r.peers := by
    intro p hp v hv
    rw [hpeers, List.mem_append] at hp
    rcases hp with hp | hp
    · exact hp
    · rw [List.mem_singleton.mp hp] at hv
      exact absurd hv (Option.not_mem_none v)
  constructor
  · intro p hp v hv
    exact h.foreign p (hold p hp v hv) v hv
  · intro p hp q hq hne haddress v hv w hw
    exact h.distinct p (hold p hp v hv) q (hold q hq w hw) hne haddress v hv w hw

/-- A peer that becomes known is told from all others. -/
lemma Identified.of_knownAs (h : r.Identified identity) (hconsistent : r.Consistent)
    {version : Version} (hmagic : version.magic = identity.magic)
    (hnonce : version.nonce ≠ identity.nonce) (hlive : r.get? id = some entry)
    (hunique : r.isDuplicate id entry.remote.ip version.nonce = false) :
    (r.modify id (·.knownAs version)).Identified identity := by
  -- A version that is known afterwards is the new one, or was known of the same connection.
  have hversion : ∀ p ∈ (r.modify id (·.knownAs version)).peers, ∀ v ∈ p.2.version,
      (p.1 = id ∧ p.2.address = entry.address ∧ v = version) ∨ (p.1 ≠ id ∧ p ∈ r.peers) := by
    rintro ⟨i, e'⟩ hp v hv
    by_cases hid : i = id
    · subst hid
      obtain ⟨e, hmem, rfl⟩ := exists_of_mem_modify_self hp
      rw [hconsistent.eq_of_mem hmem (mem_of_get? hlive)]
      exact .inl ⟨rfl, rfl, (Option.some.inj hv).symm⟩
    · exact .inr ⟨hid, (mem_modify_of_ne hid).mp hp⟩
  have hnobody : ∀ q ∈ r.peers, q.1 ≠ id → q.2.address = entry.address →
      ∀ w ∈ q.2.version, w.nonce ≠ version.nonce := by
    intro q hq hne haddress w hw hsame
    have hduplicate := isDuplicate_iff.mpr ⟨q, hq, hne, haddress, w, hw, hsame⟩
    rw [hunique] at hduplicate
    exact Bool.noConfusion hduplicate
  constructor
  · intro p hp v hv
    rcases hversion p hp v hv with ⟨-, -, rfl⟩ | ⟨-, hmem⟩
    · exact ⟨hmagic, hnonce⟩
    · exact h.foreign p hmem v hv
  · intro p hp q hq hne haddress v hv w hw
    rcases hversion p hp v hv with ⟨hid, hfrom, rfl⟩ | ⟨hid, hmem⟩
    · rcases hversion q hq w hw with ⟨hid', -⟩ | ⟨hid', hmem'⟩
      · exact absurd (hid.trans hid'.symm) hne
      · exact (hnobody q hmem' hid' (haddress.symm.trans hfrom) w hw).symm
    · rcases hversion q hq w hw with ⟨hid', hfrom', rfl⟩ | ⟨hid', hmem'⟩
      · exact hnobody p hmem hid (haddress.trans hfrom') v hv
      · exact h.distinct p hmem q hmem' hne haddress v hv w hw

end Registry

/-- Whether an effect neither makes a stream a connection nor lets a peer stay. -/
def ManagerEffect.isPlain : ManagerEffect → Bool
  | .accepted _ | .answer _ (.verdict (.ok ())) => false
  | .answer _ _ | .rejected _ | .command _ _ | .dial _ | .report _ _ | .stopped _ => true

/-- The connection that a command makes ready. -/
def ManagerCommand.greeted? : ManagerCommand → Option PeerId
  | .notice peer .ready => some peer
  | _ => none

namespace Manager

variable {m : Manager} {peer : PeerId} {version : Version}

/-! ## The verdict on a peer -/

/-- Why a peer may not stay. -/
inductive Refusal (m : Manager) (peer : PeerId) (version : Version) : DisconnectReason → Prop
  | otherNetwork (hmagic : version.magic ≠ m.settings.identity.magic) :
    Refusal m peer version .magicNumberIncompatible
  | itself (hmagic : version.magic = m.settings.identity.magic)
    (hnonce : version.nonce = m.settings.identity.nonce) :
    Refusal m peer version .duplicateConnection
  | unknown (hmagic : version.magic = m.settings.identity.magic) (hgone : peer ∉ m.registry.ids) :
    Refusal m peer version .duplicateConnection
  | duplicate {entry : PeerEntry} {rival : PeerId × PeerEntry} {w : Version}
    (hmagic : version.magic = m.settings.identity.magic)
    (hlive : m.registry.get? peer = some entry) (hrival : rival ∈ m.registry.peers)
    (hother : rival.1 ≠ peer) (haddress : rival.2.address = entry.address)
    (hknown : w ∈ rival.2.version) (hnonce : w.nonce = version.nonce) :
    Refusal m peer version .duplicateConnection

/-- What the manager makes of a peer that introduces itself. -/
inductive Judges (m : Manager) (peer : PeerId) (version : Version) :
    Manager × Except DisconnectReason Unit → Prop
  | refused {reason : DisconnectReason} (hcause : m.Refusal peer version reason) :
    Judges m peer version (m, .error reason)
  | accepted {entry : PeerEntry} {book : AddressBook}
    (hmagic : version.magic = m.settings.identity.magic)
    (hnonce : version.nonce ≠ m.settings.identity.nonce)
    (hlive : m.registry.get? peer = some entry)
    (hunique : m.registry.isDuplicate peer entry.remote.ip version.nonce = false) :
    Judges m peer version
      ({ m with book, registry := m.registry.modify peer (·.knownAs version) }, .ok ())

/-- A peer that introduces itself is refused for a cause, or known from then on. -/
lemma judges_allow (m : Manager) (peer : PeerId) (version : Version) (now : Nat) :
    m.Judges peer version (m.allow peer version now) := by
  unfold allow
  split
  · next hmagic => exact .refused (.otherNetwork hmagic)
  · next hmagic =>
    have hmagic := not_not.mp hmagic
    split
    · next hnonce => exact .refused (.itself hmagic hnonce)
    · next hnonce =>
      split
      · next hgone =>
        refine .refused (.unknown hmagic fun hlive => ?_)
        obtain ⟨p, hp, rfl⟩ := List.mem_map.mp hlive
        exact bne_iff_ne.mp (List.lookup_eq_none_iff.mp hgone p hp) rfl
      · next entry hlive =>
        split
        · next hduplicate =>
          obtain ⟨rival, hrival, hother, haddress, w, hknown, hnonce⟩ :=
            Registry.isDuplicate_iff.mp hduplicate
          exact .refused (.duplicate hmagic hlive hrival hother haddress hknown hnonce)
        · next hduplicate =>
          exact .accepted hmagic hnonce hlive (Bool.eq_false_iff.mpr hduplicate)

/-- There is one reason at most. -/
lemma Refusal.unique {reason reason' : DisconnectReason} (h : m.Refusal peer version reason)
    (h' : m.Refusal peer version reason') : reason = reason' := by
  cases h with
  | otherNetwork hmagic =>
    cases h' with
    | otherNetwork => rfl
    | itself hmagic' | unknown hmagic' | duplicate hmagic' => exact absurd hmagic' hmagic
  | itself hmagic | unknown hmagic | duplicate hmagic =>
    cases h' with
    | otherNetwork hmagic' => exact absurd hmagic hmagic'
    | itself | unknown | duplicate => rfl

/-- There is none for a peer that is accepted. -/
lemma not_refusal {entry : PeerEntry} {reason : DisconnectReason}
    (hmagic : version.magic = m.settings.identity.magic)
    (hnonce : version.nonce ≠ m.settings.identity.nonce)
    (hlive : m.registry.get? peer = some entry)
    (hunique : m.registry.isDuplicate peer entry.remote.ip version.nonce = false) :
    ¬ m.Refusal peer version reason := by
  intro h
  cases h with
  | otherNetwork hother => exact hother hmagic
  | itself _ hitself => exact hnonce hitself
  | unknown _ hgone => exact hgone (List.mem_map.mpr ⟨_, Registry.mem_of_get? hlive, rfl⟩)
  | @duplicate entry' rival w _ hlive' hrival hother haddress hknown hsame =>
    rw [hlive, Option.some.injEq] at hlive'
    subst hlive'
    have hduplicate := Registry.isDuplicate_iff.mpr
      ⟨rival, hrival, hother, haddress, w, hknown, hsame⟩
    rw [hunique] at hduplicate
    exact Bool.noConfusion hduplicate

/-! ## A command -/

/-- What a command does to the connections and to who their peers are. -/
inductive Revision (m : Manager) : ManagerCommand → Manager × List ManagerEffect → Prop
  | admitted {remote : Endpoint} {direction : Direction} {r : Manager × List ManagerEffect}
    {rest : List ManagerEffect}
    (hpeers : r.1.registry.peers =
      m.registry.peers ++ [(⟨m.registry.lastId + 1⟩, .ofRemote remote direction)])
    (hlast : r.1.registry.lastId = m.registry.lastId + 1) (hconsistent : r.1.registry.Consistent)
    (heffects : r.2 = .accepted ⟨m.registry.lastId + 1⟩ :: rest)
    (hrest : ∀ effect ∈ rest, effect.isPlain = true) : Revision m (.connect remote direction) r
  | identified {peer : PeerId} {version : Version} {entry : PeerEntry}
    {r : Manager × List ManagerEffect} {rest : List ManagerEffect}
    (hmagic : version.magic = m.settings.identity.magic)
    (hnonce : version.nonce ≠ m.settings.identity.nonce)
    (hlive : m.registry.get? peer = some entry)
    (hunique : m.registry.isDuplicate peer entry.remote.ip version.nonce = false)
    (hregistry : r.1.registry = m.registry.modify peer (·.knownAs version))
    (heffects : r.2 = .answer peer (.verdict (.ok ())) :: rest)
    (hrest : ∀ effect ∈ rest, effect.isPlain = true) :
    Revision m (.notice peer (.introduced version)) r
  | routine {c : ManagerCommand} {r : Manager × List ManagerEffect}
    (hrecalls : m.registry.Recalls c.greeted? r.1.registry)
    (hshrinks : m.registry.Shrinks r.1.registry) (hplain : ∀ effect ∈ r.2, effect.isPlain = true) :
    Revision m c r

variable {c : ManagerCommand} {r : Manager × List ManagerEffect} {choices : Choices}
  {moment : Moment}

/-- Most commands are not about the connections at all. -/
lemma Revision.of_registry_eq (hregistry : r.1.registry = m.registry)
    (hplain : ∀ effect ∈ r.2, effect.isPlain = true) : m.Revision c r := by
  refine .routine ?_ ?_ hplain
  · rw [hregistry]
    exact .refl _ _
  · rw [hregistry]
    exact .refl _

/-- A change to one connection that leaves alone who its peer is. -/
lemma Revision.of_modify {f : PeerEntry → PeerEntry}
    (hregistry : r.1.registry = m.registry.modify peer f)
    (hf : ∀ e, PeerEntry.Keeps (c.greeted? = some peer) e (f e))
    (hplain : ∀ effect ∈ r.2, effect.isPlain = true) : m.Revision c r := by
  refine .routine ?_ ?_ hplain
  · rw [hregistry]
    exact Registry.recalls_modify _ _ hf
  · rw [hregistry]
    exact Registry.shrinks_modify _ _ fun e => (hf e).remote_eq

/-- A stream that becomes a connection joins the others; one that does not leaves them alone. -/
lemma connect_revision (hconsistent : m.registry.Consistent) (choices : Choices)
    (remote : Endpoint) (direction : Direction) :
    m.Revision (.connect remote direction) (m.connect choices remote direction) := by
  have hanswers := m.answers_connect choices remote direction
  generalize m.connect choices remote direction = r at hanswers
  cases hanswers with
  | late => exact .of_registry_eq rfl (List.forall_mem_singleton.mpr rfl)
  | silent => exact .of_registry_eq rfl (List.forall_mem_singleton.mpr rfl)
  | notified => exact .of_registry_eq rfl (List.forall_mem_singleton.mpr rfl)
  | accepted _ hregistered =>
    have hregistration := hconsistent.registration remote direction m.settings.maxConnections
      m.settings.maxConnectionsPerAddress
    rw [hregistered] at hregistration
    cases hregistration with
    | admitted _ _ hpeers hlast hconsistent' =>
      exact .admitted hpeers hlast hconsistent' rfl (List.forall_mem_nil _)

/-- A height says nothing about who a peer is. -/
lemma raiseHeight_revision (m : Manager) (peer : PeerId) (height : UInt32) :
    m.Revision (.notice peer (.remoteHeight height)) (m.raiseHeight peer height) := by
  unfold raiseHeight
  split
  · exact .of_registry_eq rfl (List.forall_mem_nil _)
  · split
    · refine .of_modify (f := fun e => { e with lastBlockIndex := height }) rfl ?_
        (List.forall_mem_singleton.mpr rfl)
      exact fun e => ⟨rfl, rfl, .inl⟩
    · exact .of_registry_eq rfl (List.forall_mem_nil _)

/-- Of all notices, an introduction alone says who a peer is. -/
lemma onNotice_revision (m : Manager) (choices : Choices) (moment : Moment) (peer : PeerId)
    (n : PeerNotice) : m.Revision (.notice peer n) (m.onNotice choices moment peer n) := by
  cases n with
  | introduced version =>
    have hjudges := m.judges_allow peer version moment.now
    unfold onNotice
    dsimp only
    generalize m.allow peer version moment.now = judged at hjudges
    cases hjudges with
    | refused => exact .of_registry_eq rfl (List.forall_mem_singleton.mpr rfl)
    | accepted hmagic hnonce hlive hunique =>
      exact .identified hmagic hnonce hlive hunique rfl rfl (List.forall_mem_nil _)
  | ready =>
    let greet (e : PeerEntry) : PeerEntry :=
      { e with
        ready := true
        lastBlockIndex := (e.version.map Version.startHeight).getD e.lastBlockIndex }
    refine .of_modify (f := greet) rfl ?_ (List.forall_mem_nil _)
    exact fun e => ⟨rfl, rfl, fun _ => .inr rfl⟩
  | filterChanged filter =>
    refine .of_modify (f := fun e => { e with filter }) rfl ?_ (List.forall_mem_nil _)
    exact fun e => ⟨rfl, rfl, .inl⟩
  | remoteHeight height => exact m.raiseHeight_revision peer height
  | suggested records => exact .of_registry_eq rfl (List.forall_mem_nil _)
  | delivered inventory =>
    have hannounced : ∀ effect ∈ m.announce inventory (some peer), effect.isPlain = true :=
      List.forall_mem_map.mpr fun _ _ => rfl
    exact .of_registry_eq rfl (List.forall_mem_cons.mpr ⟨rfl, hannounced⟩)
  | addressRequest => exact .of_registry_eq rfl (List.forall_mem_singleton.mpr rfl)
  | disconnected =>
    exact .routine (Registry.recalls_remove _ _ _) (Registry.shrinks_remove _ _)
      (List.forall_mem_nil _)

/-- Attempts to connect concern no connection that there is. -/
lemma dialSome_revision (m : Manager) (choices : Choices) (wanted : Nat)
    (candidates : List Endpoint) : m.Revision c (m.dialSome choices wanted candidates) :=
  .of_registry_eq rfl (List.forall_mem_map.mpr fun _ _ => rfl)

/-- Looking for connections changes none of those that there are. -/
lemma discover_revision (m : Manager) (choices : Choices) :
    m.Revision c (m.discover choices) := by
  unfold discover
  dsimp only
  split
  · exact .of_registry_eq rfl (List.forall_mem_nil _)
  · split
    · exact m.dialSome_revision choices _ _
    · split
      · exact .of_registry_eq rfl (List.forall_mem_map.mpr fun _ _ => rfl)
      · exact m.dialSome_revision choices _ _

/-- A call to stop leaves the peers who they are. -/
lemma beginShutdown_revision (m : Manager) (caller : Nat) :
    m.Revision c (m.beginShutdown caller) := by
  unfold beginShutdown
  split
  · exact .of_registry_eq rfl (List.forall_mem_map.mpr fun _ _ => rfl)
  · exact .of_registry_eq rfl (List.forall_mem_nil _)
  · exact .of_registry_eq rfl (List.forall_mem_nil _)

/-- What handling a command does to the connections is a revision. -/
lemma handle_revision (hconsistent : m.registry.Consistent) (choices : Choices) (moment : Moment)
    (c : ManagerCommand) : m.Revision c (m.handle choices moment c) := by
  cases c with
  | connect remote direction => exact connect_revision hconsistent choices remote direction
  | notice peer n => exact m.onNotice_revision choices moment peer n
  | addPeers endpoints => exact .of_registry_eq rfl (List.forall_mem_nil _)
  | relay inventory => exact .of_registry_eq rfl (List.forall_mem_map.mpr fun _ _ => rfl)
  | broadcast message => exact .of_registry_eq rfl (List.forall_mem_map.mpr fun _ _ => rfl)
  | inspect => exact .of_registry_eq rfl (List.forall_mem_nil _)
  | tick =>
    rw [handle]
    split
    · exact m.discover_revision choices
    · exact .of_registry_eq rfl (List.forall_mem_nil _)
  | dialFinished endpoint => exact .of_registry_eq rfl (List.forall_mem_nil _)
  | rejectionFinished => exact .of_registry_eq rfl (List.forall_mem_nil _)
  | shutdown caller => exact m.beginShutdown_revision caller

/-- Neither the connections nor what is known of them matter to a manager that stops. -/
lemma stopIfDone_eq (m : Manager) :
    m.stopIfDone.1.registry = m.registry ∧ m.stopIfDone.1.book = m.book ∧
      ∀ effect ∈ m.stopIfDone.2, ∃ callers, effect = .stopped callers := by
  unfold stopIfDone
  split
  · split
    · exact ⟨rfl, rfl, List.forall_mem_singleton.mpr ⟨_, rfl⟩⟩
    · exact ⟨rfl, rfl, List.forall_mem_nil _⟩
  · exact ⟨rfl, rfl, List.forall_mem_nil _⟩
  · exact ⟨rfl, rfl, List.forall_mem_nil _⟩

/-- Stopping leaves the registry alone, so it adds nothing to what a command does to it. -/
lemma Revision.stopIfDone (h : m.Revision c r) :
    m.Revision c (r.1.stopIfDone.1, r.2 ++ r.1.stopIfDone.2) := by
  obtain ⟨hregistry, -, hstopped⟩ := stopIfDone_eq r.1
  have hlast : ∀ effect ∈ r.1.stopIfDone.2, effect.isPlain = true := by
    intro effect heffect
    obtain ⟨callers, rfl⟩ := hstopped effect heffect
    rfl
  have hplain : ∀ rest : List ManagerEffect, (∀ effect ∈ rest, effect.isPlain = true) →
      ∀ effect ∈ rest ++ r.1.stopIfDone.2, effect.isPlain = true :=
    fun rest hrest => List.forall_mem_append.mpr ⟨hrest, hlast⟩
  cases h with
  | @admitted _ _ _ rest hpeers hlast hconsistent heffects hrest =>
    refine .admitted ?_ ?_ ?_ ?_ (hplain rest hrest)
    · exact (congrArg Registry.peers hregistry).trans hpeers
    · exact (congrArg Registry.lastId hregistry).trans hlast
    · dsimp only
      rwa [hregistry]
    · exact congrArg (· ++ r.1.stopIfDone.2) heffects
  | @identified peer version entry _ rest hmagic hnonce hlive hunique hknown heffects hrest =>
    exact .identified hmagic hnonce hlive hunique (hregistry.trans hknown)
      (congrArg (· ++ r.1.stopIfDone.2) heffects) (hplain rest hrest)
  | routine hrecalls hshrinks hroutine =>
    refine .routine ?_ ?_ (hplain r.2 hroutine)
    · dsimp only
      rwa [hregistry]
    · dsimp only
      rwa [hregistry]

/-- What taking a command does to the connections is a revision. -/
lemma step_revision (hconsistent : m.registry.Consistent) (choices : Choices) (moment : Moment)
    (c : ManagerCommand) : m.Revision c (m.step choices moment c) := by
  cases hlive : m.isStopped with
  | true =>
    rw [step_of_stopped hlive]
    exact .of_registry_eq rfl (List.forall_mem_nil _)
  | false =>
    rw [step_of_live hlive]
    exact (handle_revision hconsistent choices moment c).stopIfDone

/-- No command changes the settings. -/
lemma settings_step (m : Manager) (choices : Choices) (moment : Moment) (c : ManagerCommand) :
    (m.step choices moment c).1.settings = m.settings := by
  have hhandle : (m.handle choices moment c).1.settings = m.settings := by
    by_cases hconnect : ∃ remote direction, c = .connect remote direction
    · obtain ⟨remote, direction, rfl⟩ := hconnect
      have hanswers := m.answers_connect choices remote direction
      rw [handle]
      generalize m.connect choices remote direction = r at hanswers
      cases hanswers <;> rfl
    · by_cases hfinished : c = .rejectionFinished
      · rw [hfinished]
        rfl
      · have hother : ∀ remote direction, c ≠ .connect remote direction :=
          fun remote direction heq => hconnect ⟨remote, direction, heq⟩
        exact (handle_abstains m choices moment hother hfinished).settings_eq
  cases hlive : m.isStopped with
  | true => rw [step_of_stopped hlive]
  | false =>
    rw [step_of_live hlive]
    exact (stopIfDone_spec _).1.settings_eq.trans hhandle

/-! ## Runs -/

/-- A manager after the commands that it took. -/
def after (settings : Settings) (commands : List (Choices × Moment × ManagerCommand)) : Manager :=
  commands.foldl (fun m (choices, moment, c) => (m.step choices moment c).1) (start settings)

/-- A manager that runs under its settings and can tell its peers apart. -/
structure Discerning (settings : Settings) (m : Manager) : Prop where
  settings_eq : m.settings = settings
  consistent : m.registry.Consistent
  identified : m.registry.Identified settings.identity

variable {settings : Settings}

/-- A manager that starts has nobody to tell apart. -/
lemma discerning_start (settings : Settings) : (start settings).Discerning settings :=
  ⟨rfl, Registry.consistent_empty, Registry.identified_empty _⟩

/-- A revision leaves the peers distinct. -/
lemma Revision.discerning (h : m.Revision c r) (hm : m.Discerning settings)
    (hsettings : r.1.settings = m.settings) : r.1.Discerning settings := by
  have hsame := hsettings.trans hm.settings_eq
  cases h with
  | admitted hpeers _ hconsistent => exact ⟨hsame, hconsistent, hm.identified.of_append hpeers⟩
  | @identified peer version entry _ _ hmagic hnonce hlive hunique hregistry =>
    rw [hm.settings_eq] at hmagic hnonce
    refine ⟨hsame, ?_, ?_⟩
    · rw [hregistry]
      exact (Registry.shrinks_modify m.registry peer (f := (·.knownAs version))
        fun _ => rfl).consistent hm.consistent
    · rw [hregistry]
      exact hm.identified.of_knownAs hm.consistent hmagic hnonce hlive hunique
  | routine hrecalls hshrinks =>
    exact ⟨hsame, hshrinks.consistent hm.consistent, hm.identified.of_recalls hrecalls⟩

/-- Every command leaves a manager able to tell its peers apart. -/
lemma Discerning.step (h : m.Discerning settings) (choices : Choices) (moment : Moment)
    (c : ManagerCommand) : (m.step choices moment c).1.Discerning settings :=
  (step_revision h.consistent choices moment c).discerning h (settings_step m choices moment c)

/-- After all commands a manager can tell its peers apart. -/
lemma discerning_after (settings : Settings)
    (commands : List (Choices × Moment × ManagerCommand)) :
    (after settings commands).Discerning settings :=
  List.foldlRecOn commands _ (discerning_start settings) fun _ hm (choices, moment, c) _ =>
    hm.step choices moment c

/-- An introduction is answered by the verdict, as long as the manager has not stopped. -/
lemma step_introduced (hlive : m.isStopped = false) (choices : Choices) (moment : Moment)
    (peer : PeerId) (version : Version) :
    m.step choices moment (.notice peer (.introduced version)) =
      ((m.allow peer version moment.now).1.stopIfDone.1,
        .answer peer (.verdict (m.allow peer version moment.now).2) ::
          (m.allow peer version moment.now).1.stopIfDone.2) := by
  rw [step_of_live hlive]
  rfl

/-- It is answered once. -/
lemma verdict_mem_step_iff (hlive : m.isStopped = false) {verdict : Except DisconnectReason Unit} :
    .answer peer (.verdict verdict) ∈
        (m.step choices moment (.notice peer (.introduced version))).2 ↔
      (m.allow peer version moment.now).2 = verdict := by
  rw [step_introduced hlive]
  constructor
  · intro hmem
    rcases List.mem_cons.mp hmem with heq | hlast
    · cases heq
      rfl
    · obtain ⟨callers, heq⟩ := (stopIfDone_eq _).2.2 _ hlast
      exact ManagerEffect.noConfusion heq
  · rintro rfl
    exact List.mem_cons_self

/-- Whatever commands a manager took, no two live connections have one number; every peer that is
known by its version is of the network of the node and not the node itself; and no two of them have
one address, in normal form, and one nonce.  A peer that introduces itself is refused exactly if it
is of another network, is the node itself, is not live, or is a duplicate, and the manager says so;
a refusal leaves the connections and the address book exactly as they were.  Every other peer is
accepted and known by its version from then on. -/
theorem identities_distinct (settings : Settings)
    (commands : List (Choices × Moment × ManagerCommand)) :
    let m := after settings commands
    m.registry.ids.Nodup ∧
    (∀ p ∈ m.registry.peers, ∀ v ∈ p.2.version,
      v.magic = settings.identity.magic ∧ v.nonce ≠ settings.identity.nonce) ∧
    (∀ p ∈ m.registry.peers, ∀ q ∈ m.registry.peers, p.1 ≠ q.1 →
      ∀ v ∈ p.2.version, ∀ w ∈ q.2.version,
        ¬ (p.2.remote.ip.normal = q.2.remote.ip.normal ∧ v.nonce = w.nonce)) ∧
    (∀ choices moment peer version,
      let next := m.step choices moment (.notice peer (.introduced version))
      (∀ reason, .answer peer (.verdict (.error reason)) ∈ next.2 →
        m.Refusal peer version reason ∧
        next.1.registry = m.registry ∧ next.1.book = m.book) ∧
      (.answer peer (.verdict (.ok ())) ∈ next.2 →
        ∃ entry, m.registry.get? peer = some entry ∧
          next.1.registry = m.registry.modify peer (·.knownAs version)) ∧
      (m.isStopped = false → (∀ reason, ¬ m.Refusal peer version reason) →
        .answer peer (.verdict (.ok ())) ∈ next.2) ∧
      (m.isStopped = false → ∀ reason, m.Refusal peer version reason →
        .answer peer (.verdict (.error reason)) ∈ next.2)) := by
  intro m
  have hm : m.Discerning settings := discerning_after settings commands
  refine ⟨hm.consistent.nodup_ids, hm.identified.foreign, ?_, ?_⟩
  · rintro p hp q hq hne v hv w hw ⟨haddress, hnonce⟩
    exact hm.identified.distinct p hp q hq hne haddress v hv w hw hnonce
  · intro choices moment peer version next
    have hjudges := m.judges_allow peer version moment.now
    cases hlive : m.isStopped with
    | true =>
      have hnext : next = (m, []) := step_of_stopped hlive choices moment _
      rw [hnext]
      refine ⟨fun reason hmem => ?_, fun hmem => ?_, fun h => ?_, fun h => ?_⟩
      · exact absurd hmem List.not_mem_nil
      · exact absurd hmem List.not_mem_nil
      · exact Bool.noConfusion h
      · exact Bool.noConfusion h
    | false =>
      have hverdict : ∀ {verdict}, .answer peer (.verdict verdict) ∈ next.2 ↔
          (m.allow peer version moment.now).2 = verdict := verdict_mem_step_iff hlive
      have hregistry : next.1.registry = (m.allow peer version moment.now).1.registry ∧
          next.1.book = (m.allow peer version moment.now).1.book := by
        obtain ⟨hregistry, hbook, -⟩ := stopIfDone_eq (m.allow peer version moment.now).1
        have hnext : next = _ := step_introduced hlive choices moment peer version
        rw [hnext]
        exact ⟨hregistry, hbook⟩
      simp only [hverdict, hregistry]
      generalize m.allow peer version moment.now = judged at hjudges
      cases hjudges with
      | @refused reason hcause =>
        refine ⟨fun reason' heq => ?_, fun heq => ?_, fun _ h => ?_, fun _ reason' h => ?_⟩
        · rw [← Except.error.inj heq]
          exact ⟨hcause, rfl, rfl⟩
        · exact Except.noConfusion rfl rfl (heq_of_eq heq)
        · exact absurd hcause (h reason)
        · rw [hcause.unique h]
      | accepted hmagic hnonce hknown hunique =>
        refine ⟨fun reason heq => ?_, fun _ => ⟨_, hknown, rfl⟩, fun _ _ => rfl,
          fun _ reason h => ?_⟩
        · exact Except.noConfusion rfl rfl (heq_of_eq heq)
        · exact absurd h (not_refusal hmagic hnonce hknown hunique)

/-- Of two connections from one address, spelled in two ways, only one gets by with a nonce. -/
theorem identities_distinct_of_two_spellings :
    ∃ (commands : List (Choices × Moment × ManagerCommand)) (version : Version),
      let m := after (.standard (.ofMagic 7 1)) commands
      let next := m.step .first ⟨0, 0⟩ (.notice ⟨2⟩ (.introduced version))
      m.registry.ids = [⟨1⟩, ⟨2⟩] ∧
      (m.registry.get? ⟨1⟩).bind PeerEntry.version = some version ∧
      m.Refusal ⟨2⟩ version .duplicateConnection ∧
      .answer ⟨2⟩ (.verdict (.error .duplicateConnection)) ∈ next.2 ∧
      next.1.registry = m.registry ∧ next.1.book = m.book := by
  let settings : Settings := .standard (.ofMagic 7 1)
  let version : Version := (Identity.ofMagic 7 2).version 0 0
  let plain : Endpoint := ⟨default, 1⟩
  let mapped : Endpoint := ⟨.v6 (Ip.wireOctets default), 2⟩
  let first : Registry :=
    ⟨[(⟨1⟩, .ofRemote plain .inbound)], (∅ : Std.HashMap Ip Nat).insert default 1, 1⟩
  let second : Registry :=
    ⟨[(⟨1⟩, .ofRemote plain .inbound), (⟨2⟩, .ofRemote mapped .inbound)],
      first.perAddress.insert default 2, 2⟩
  have hplain : (default : Ip).normal = default := by decide +kernel
  have hmapped : (Ip.v6 (Ip.wireOctets default)).normal = default := by decide +kernel
  have hfirst : Registry.empty.register plain .inbound 40 3 = .ok (first, ⟨1⟩) := by
    simp [Registry.register, Registry.empty, Registry.size, Registry.connectionsFrom, plain, first,
      hplain]
  have hsecond : first.register mapped .inbound 40 3 = .ok (second, ⟨2⟩) := by
    simp [Registry.register, Registry.size, Registry.connectionsFrom, mapped, first, second, hplain,
      hmapped]
  let now : Moment := ⟨0, 0⟩
  let commands : List (Choices × Moment × ManagerCommand) :=
    [(.first, now, .connect plain .inbound), (.first, now, .connect mapped .inbound),
      (.first, now, .notice ⟨1⟩ (.introduced version))]
  have hafter : after settings commands =
      (({ start settings with registry := second } : Manager).step .first now
        (.notice ⟨1⟩ (.introduced version))).1 := by
    have hone : (start settings).step .first now (.connect plain .inbound) =
        ({ start settings with registry := first }, [.accepted ⟨1⟩]) := by
      rw [step_connect_of_isRunning rfl, connect_of_ok rfl hfirst]
    have htwo : ({ start settings with registry := first } : Manager).step .first now
        (.connect mapped .inbound) =
        ({ start settings with registry := second }, [.accepted ⟨2⟩]) := by
      rw [step_connect_of_isRunning rfl, connect_of_ok rfl hsecond]
    simp only [after, commands, List.foldl_cons, List.foldl_nil, hone, htwo]
  have hrefused : (after settings commands).Refusal ⟨2⟩ version .duplicateConnection := by
    rw [hafter]
    refine @Refusal.duplicate _ _ _ (.ofRemote mapped .inbound)
      (⟨1⟩, (PeerEntry.ofRemote plain .inbound).knownAs version) version ?_ ?_ ?_ ?_ ?_ ?_ ?_
    all_goals decide +kernel
  obtain ⟨-, -, -, hverdicts⟩ := identities_distinct settings commands
  obtain ⟨hrefusal, -, -, hanswered⟩ := hverdicts .first now ⟨2⟩ version
  have hlive : (after settings commands).isStopped = false := by
    rw [hafter]
    rfl
  have hanswer := hanswered hlive _ hrefused
  obtain ⟨-, hregistry, hbook⟩ := hrefusal _ hanswer
  refine ⟨commands, version, ?_, ?_, hrefused, hanswer, hregistry, hbook⟩
  · change (after settings commands).registry.ids = _
    rw [hafter]
    decide +kernel
  · change ((after settings commands).registry.get? ⟨1⟩).bind PeerEntry.version = _
    rw [hafter]
    decide +kernel

end Manager

end PeerNet
