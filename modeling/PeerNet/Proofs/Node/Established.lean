import PeerNet.Ledger.Memory
import PeerNet.Proofs.Manager.Targets
import PeerNet.Proofs.Node.Assembly
import PeerNet.Proofs.Session.History

/-!
# Who is ready

The other half of an assembly is its manager.  A command that makes a stream a connection starts a
session, under a number that no session had before; a command that identifies a peer gives its
session the positive verdict; and a notice that a session is ready comes from a session that took
that verdict up.  All other commands leave alone what the sessions rely on.  So every connection
that is ready has an established peer (`Assembly.Established`), in every run.
-/

namespace PeerNet

namespace Assembly

variable {settings : Settings} {a a' : Assembly} {peer : PeerId} {member : Member}
  {choices : Choices} {c : ManagerCommand}

/-! ## A command of the manager -/

/-- What a session that sends a command has behind it. -/
inductive Backs (a : Assembly) : ManagerCommand → Prop
  | introduced {peer : PeerId} {member : Member} {v : Version}
    (hmember : a.members peer = some member)
    (hversion : member.session.handler.version = some v) :
    Backs a (.notice peer (.introduced v))
  | ready {peer : PeerId} {member : Member} (hmember : a.members peer = some member)
    (hcompleted : a.Completed peer member.session.handler.version) :
    Backs a (.notice peer .ready)
  | other {c : ManagerCommand} (hgreeted : c.greeted? = none)
    (hintroduced : ∀ peer v, c ≠ .notice peer (.introduced v)) : Backs a c

/-- What neither starts a session nor lets a peer stay is nothing that a session relies on. -/
lemma Sound.obey (h : a.Sound settings) (ledger : Ledger) (moment : Moment) (c : ManagerCommand)
    {effect : ManagerEffect} (hplain : effect.isPlain = true) :
    (a.obey ledger moment c effect).Sound settings := by
  cases effect with
  | accepted peer => exact Bool.noConfusion hplain
  | answer peer answer =>
    have hrefusal : answer ≠ .verdict (.ok ()) := by
      rintro rfl
      exact Bool.noConfusion hplain
    have haccepted : a.accepted ++ consent c answer = a.accepted := by
      unfold consent
      split
      · exact absurd rfl hrefusal
      · exact List.append_nil _
    unfold Assembly.obey
    dsimp only
    cases hmember : a.members peer with
    | none =>
      have hsame : Function.update a.members peer none = a.members := by
        rw [← hmember, Function.update_eq_self]
      rw [Option.map_none, hsame, haccepted]
      exact h
    | some member =>
      have hsound := h.members peer member hmember
      have hanswered : a.MemberSound peer { member with answer := some answer } := by
        refine ⟨hsound.coherent, hsound.fresh, hsound.introduced, fun hadmitted => ?_,
          hsound.completed, hsound.issued⟩
        refine hsound.admitted (.inr (hadmitted.resolve_left fun hanswer => ?_))
        exact hrefusal (Option.some.inj hanswer)
      exact h.set rfl haccepted (List.Subset.refl _) rfl hanswered
  | report peer r =>
    refine ⟨h.discerning, h.present, fun other m hm => ?_⟩
    exact (h.members other m hm).congr rfl rfl (List.subset_append_left _ _)
  | rejected notice? => exact h
  | command peer c => exact h
  | dial endpoint => exact h
  | stopped callers => exact h

/-- Effects that are of no concern to who the peers are leave the sessions in step with the
manager. -/
lemma Sound.obeyAll (h : a.Sound settings) (ledger : Ledger) (moment : Moment)
    (c : ManagerCommand) {effects : List ManagerEffect}
    (hplain : ∀ effect ∈ effects, effect.isPlain = true) :
    (effects.foldl (Assembly.obey ledger moment c) a).Sound settings :=
  List.foldlRecOn effects _ h fun _ ha effect heffect =>
    ha.obey ledger moment c (hplain effect heffect)

/-- A new session is due nothing, and it need not be, as its connection is not ready. -/
lemma memberSound_start (settings : Settings) (ledger : Ledger) (unixTime : UInt32)
    (hready : ¬ a.IsReady peer) (hissued : peer.number ≤ a.manager.registry.lastId) :
    a.MemberSound peer (Member.start settings ledger unixTime) := by
  have hcoherent : (Session.start settings ledger unixTime).1.Coherent := Session.coherent_start
  refine ⟨hcoherent, fun _ => rfl, fun v hv => absurd hv List.not_mem_nil, ?_, ?_, hissued⟩
  · rintro (hanswer | ⟨hstate, -⟩ | hstate)
    · exact Option.noConfusion rfl (heq_of_eq hanswer)
    · exact HandshakeState.noConfusion hstate
    · exact HandshakeState.noConfusion hstate
  · rintro (htold | hlive)
    · exact absurd htold List.not_mem_nil
    · exact absurd hlive hready

/-- A connection more is a session more. -/
lemma Sound.accept (h : a.Sound settings) {manager : Manager} {remote : Endpoint}
    {direction : Direction} (hdiscerning : manager.Discerning settings)
    (hpeers : manager.registry.peers = a.manager.registry.peers ++
      [(⟨a.manager.registry.lastId + 1⟩, .ofRemote remote direction)])
    (hlast : manager.registry.lastId = a.manager.registry.lastId + 1) (ledger : Ledger)
    (moment : Moment) :
    (({ a with manager } : Assembly).obey ledger moment (.connect remote direction)
      (.accepted ⟨a.manager.registry.lastId + 1⟩)).Sound settings := by
  let peer : PeerId := ⟨a.manager.registry.lastId + 1⟩
  have hmem : ∀ p ∈ manager.registry.peers,
      p = (peer, .ofRemote remote direction) ∨ p ∈ a.manager.registry.peers := by
    intro p hp
    rw [hpeers, List.mem_append, List.mem_singleton] at hp
    exact hp.symm
  have hlive : ∀ {other e}, other.number ≤ a.manager.registry.lastId →
      (other, e) ∈ manager.registry.peers → (other, e) ∈ a.manager.registry.peers := by
    intro other e hissued hp
    refine (hmem _ hp).resolve_left fun heq => ?_
    rw [(Prod.mk.inj heq).1] at hissued
    exact Nat.not_succ_le_self _ hissued
  refine h.update hdiscerning (fun p hp => ?_) rfl ?_ fun other m hother hm => ?_
  · exact (hmem p hp).imp (congrArg Prod.fst) fun hp => ⟨p.2, hp⟩
  · refine memberSound_start manager.settings ledger moment.unixTime ?_ hlast.ge
    rintro ⟨e, he, hready⟩
    rcases hmem _ he with heq | hold
    · rw [(Prod.mk.inj heq).2] at hready
      exact Bool.noConfusion hready
    · have hbounded := h.discerning.consistent.bounded peer (List.mem_map.mpr ⟨_, hold, rfl⟩)
      exact absurd hbounded (Nat.not_succ_le_self _)
  · refine hm.mono (fun v hv => ⟨hv.accepted, fun e he => hv.known e (hlive hm.issued he)⟩)
      (fun ⟨e, he, hready⟩ => hm.completed (.inr ⟨e, hlive hm.issued he, hready⟩))
      (List.Subset.refl _) ?_
    exact (Nat.le_succ _).trans hlast.ge

/-- A version that is accepted is the one that the session holds. -/
lemma Sound.identify (h : a.Sound settings) {manager : Manager} {version : Version}
    (hdiscerning : manager.Discerning settings)
    (hregistry : manager.registry = a.manager.registry.modify peer (·.knownAs version))
    (hmember : a.members peer = some member)
    (hversion : member.session.handler.version = some version) (ledger : Ledger)
    (moment : Moment) :
    (({ a with manager } : Assembly).obey ledger moment (.notice peer (.introduced version))
      (.answer peer (.verdict (.ok ())))).Sound settings := by
  let a' := ({ a with manager } : Assembly).obey ledger moment
    (.notice peer (.introduced version)) (.answer peer (.verdict (.ok ())))
  have hsound := h.members peer member hmember
  have hself : ∀ {e'}, (peer, e') ∈ manager.registry.peers →
      ∃ e, (peer, e) ∈ a.manager.registry.peers ∧ e' = e.knownAs version := by
    intro e' he'
    rw [hregistry] at he'
    exact Registry.exists_of_mem_modify_self he'
  have hother : ∀ {p : PeerId × PeerEntry}, p.1 ≠ peer → p ∈ manager.registry.peers →
      p ∈ a.manager.registry.peers := by
    intro p hne hp
    rw [hregistry] at hp
    exact (Registry.mem_modify_of_ne hne).mp hp
  have hlast : manager.registry.lastId = a.manager.registry.lastId := by
    rw [hregistry]
    rfl
  have hvouches : a'.Vouches peer version := by
    refine ⟨List.mem_append_right _ List.mem_cons_self, fun e' he' => ?_⟩
    obtain ⟨e, -, rfl⟩ := hself he'
    rfl
  have hmembers : a'.members =
      Function.update a.members peer (some { member with answer := some (.verdict (.ok ())) }) := by
    change Function.update a.members peer ((a.members peer).map _) = _
    rw [hmember]
    rfl
  refine h.update hdiscerning (fun p hp => ?_) hmembers ?_ fun other m hne hm => ?_
  · by_cases hpeer : p.1 = peer
    · exact .inl hpeer
    · exact .inr ⟨p.2, hother hpeer hp⟩
  · refine ⟨hsound.coherent, hsound.fresh, hsound.introduced,
      fun _ => ⟨version, hversion, hvouches⟩,
      fun hcompleted => ?_, ?_⟩
    · have hbefore : .ready ∈ member.told ∨ a.IsReady peer := by
        refine hcompleted.imp_right fun ⟨e', he', hready⟩ => ?_
        obtain ⟨e, he, rfl⟩ := hself he'
        exact ⟨e, he, hready⟩
      obtain ⟨v, hknown, -, hreport⟩ := hsound.completed hbefore
      rw [hversion, Option.some.injEq] at hknown
      subst hknown
      exact ⟨version, hversion, hvouches, hreport⟩
    · exact hsound.issued.trans hlast.ge
  · exact hm.mono
      (fun v hv => ⟨List.mem_append_left _ hv.accepted, fun e he => hv.known e (hother hne he)⟩)
      (fun ⟨e, he, hready⟩ => hm.completed (.inr ⟨e, hother hne he, hready⟩)) (List.Subset.refl _)
      hlast.ge

/-- A connection becomes ready only when its session says so. -/
lemma Sound.recall (h : a.Sound settings) {manager : Manager} (hbacks : a.Backs c)
    (hdiscerning : manager.Discerning settings)
    (hrecalls : a.manager.registry.Recalls c.greeted? manager.registry)
    (hshrinks : a.manager.registry.Shrinks manager.registry) :
    ({ a with manager } : Assembly).Sound settings := by
  refine ⟨hdiscerning, fun p hp => ?_, fun other m hm => ?_⟩
  · obtain ⟨e, he, -⟩ := hrecalls p hp
    exact h.present (p.1, e) he
  · have hsound := h.members other m hm
    refine hsound.mono (fun v hv => ⟨hv.accepted, fun e' he' => ?_⟩) ?_ (List.Subset.refl _)
      hshrinks.lastId_eq.ge
    · obtain ⟨e, he, hkeeps⟩ := hrecalls _ he'
      exact hkeeps.version_eq.trans (hv.known e he)
    · rintro ⟨e', he', hready⟩
      obtain ⟨e, he, hkeeps⟩ := hrecalls _ he'
      rcases hkeeps.ready hready with hold | hgreeted
      · exact hsound.completed (.inr ⟨e, he, hold⟩)
      · cases hbacks with
        | introduced => exact Option.noConfusion rfl (heq_of_eq hgreeted)
        | ready hmember hcompleted =>
          cases hgreeted
          rw [hm, Option.some.injEq] at hmember
          rwa [hmember]
        | other hnone =>
          rw [hnone] at hgreeted
          exact Option.noConfusion rfl (heq_of_eq hgreeted)

/-- The manager may take any command that is not a session's, and any that its session backs. -/
lemma Sound.command (h : a.Sound settings) (choices : Choices) (ledger : Ledger)
    (moment : Moment) (hbacks : a.Backs c) :
    (a.command choices ledger moment c).Sound settings := by
  have hrevision := Manager.step_revision h.discerning.consistent choices moment c
  have hdiscerning := h.discerning.step choices moment c
  unfold Assembly.command
  dsimp only
  generalize a.manager.step choices moment c = r at hrevision hdiscerning ⊢
  cases hrevision with
  | admitted hpeers hlast hconsistent heffects hrest =>
    rw [heffects, List.foldl_cons]
    exact (h.accept hdiscerning hpeers hlast ledger moment).obeyAll ledger moment _ hrest
  | identified hmagic hnonce hlive hunique hregistry heffects hrest =>
    cases hbacks with
    | introduced hmember hversion =>
      rw [heffects, List.foldl_cons]
      exact (h.identify hdiscerning hregistry hmember hversion ledger moment).obeyAll
        ledger moment _
        hrest
    | other _ hintroduced => exact absurd rfl (hintroduced _ _)
  | routine hrecalls hshrinks hplain =>
    exact (h.recall hbacks hdiscerning hrecalls hshrinks).obeyAll ledger moment c hplain

/-! ## Runs -/

/-- A notice that a session told is backed by the session. -/
lemma MemberSound.backs (h : a.MemberSound peer member) {n : PeerNotice} (hn : n ∈ member.told)
    (hmembers : ∃ m, a'.members peer = some m ∧ m.session = member.session)
    (hmanager : a'.manager = a.manager) (haccepted : a'.accepted = a.accepted)
    (hreports : a'.reports = a.reports) : a'.Backs (.notice peer n) := by
  obtain ⟨m, hm, hsession⟩ := hmembers
  cases n with
  | introduced v =>
    refine .introduced hm ?_
    rw [hsession]
    exact h.introduced v hn
  | ready =>
    obtain ⟨v, hversion, hvouches, hreport⟩ := h.completed (.inl hn)
    refine .ready hm ⟨v, ?_, ⟨?_, ?_⟩, ?_⟩
    · rw [hsession]
      exact hversion
    · rw [haccepted]
      exact hvouches.accepted
    · rw [hmanager]
      exact hvouches.known
    · rw [hreports]
      exact hreport
  | filterChanged | remoteHeight | suggested | delivered | addressRequest | disconnected =>
    exact .other rfl fun _ _ heq => PeerNotice.noConfusion (ManagerCommand.notice.inj heq).2

/-- A notice that is heard is no longer on its way. -/
lemma Sound.hear (h : a.Sound settings) {session : Session} {n : PeerNotice}
    {told : List PeerNotice} {answer : Option ManagerAnswer}
    (hmember : a.members peer = some ⟨session, n :: told, answer⟩) :
    ({ a with members := Function.update a.members peer (some ⟨session, told, answer⟩) } :
      Assembly).Sound settings := by
  have hsound := h.members peer _ hmember
  have hheard : a.MemberSound peer ⟨session, told, answer⟩ :=
    ⟨hsound.coherent, hsound.fresh, fun v hv => hsound.introduced v (List.mem_cons_of_mem _ hv),
      hsound.admitted, fun h => hsound.completed (h.imp_left (List.mem_cons_of_mem _)),
      hsound.issued⟩
  exact h.set rfl rfl (List.Subset.refl _) rfl hheard

/-- Whatever happens next, everybody goes on to be due what holds of them. -/
lemma Sound.advance (h : a.Sound settings) (event : Event) : (a.advance event).Sound settings := by
  unfold Assembly.advance
  split
  · exact h
  · next choices ledger moment c hc =>
    refine h.command choices ledger moment ?_
    cases c with
    | notice peer n => exact absurd rfl (hc peer n)
    | connect | addPeers | relay | broadcast | inspect | tick | dialFinished | rejectionFinished
    | shutdown => exact .other rfl fun _ _ => ManagerCommand.noConfusion
  · next choices ledger moment peer =>
    split
    · next session n told answer hmember =>
      refine (h.hear hmember).command choices ledger moment ?_
      exact (h.members peer _ hmember).backs List.mem_cons_self
        ⟨_, Function.update_self .., rfl⟩ rfl
        rfl rfl
    · exact h
    · exact h
  · exact h
  · next ledger moment peer input hinput =>
    split
    · next member hmember =>
      exact h.turn (h.members peer member hmember) ledger moment fun heq => absurd heq (hinput _)
    · exact h
  · next ledger moment peer =>
    split
    · next session told answer hmember =>
      split
      · have hsound := h.members peer _ hmember
        have hasked : a.MemberSound peer ⟨session, told, none⟩ :=
          ⟨hsound.coherent, hsound.fresh, hsound.introduced,
            fun h => hsound.admitted (.inr (h.resolve_left (fun heq =>
              Option.noConfusion rfl (heq_of_eq heq)))), hsound.completed, hsound.issued⟩
        refine h.turn hasked ledger moment fun heq => hsound.admitted (.inl ?_)
        rw [SessionInput.answer.inj heq]
      · exact h
    · exact h
    · exact h

/-- After all events the sessions are in step with the manager. -/
lemma sound_after (settings : Settings) (events : List Event) :
    (after settings events).Sound settings :=
  List.foldlRecOn events advance (sound_start settings) fun _ h event _ => h.advance event

/-! ## Who is ready -/

/-- A peer that is ready, as somebody who was let in: its connection is live and known by the
version that was accepted for it, that its session holds, and that it was reported with; and it is
of the network of the node, not the node itself, and not the peer of another live connection. -/
structure Established (settings : Settings) (a : Assembly) (p : PeerId × PeerEntry) (v : Version) :
    Prop where
  live : p ∈ a.manager.registry.peers
  ready : p.2.ready = true
  known : p.2.version = some v
  accepted : (p.1, v) ∈ a.accepted
  held : ∃ member, a.members p.1 = some member ∧ member.session.handler.version = some v
  reported : (p.1, .peerReady v) ∈ a.reports
  network : v.magic = settings.identity.magic
  other : v.nonce ≠ settings.identity.nonce
  unique : ∀ q ∈ a.manager.registry.peers, q.1 ≠ p.1 →
    q.2.remote.ip.normal = p.2.remote.ip.normal → ∀ w ∈ q.2.version, w.nonce ≠ v.nonce

/-- A record is that of an established peer. -/
def Offers (settings : Settings) (a : Assembly) (record : AddressRecord) : Prop :=
  ∃ p v, a.Established settings p v ∧
    record = .ofIp p.2.remote.ip.normal v.timestamp v.capabilities

/-- Every connection that is ready is that of an established peer. -/
lemma Sound.established (h : a.Sound settings) {p : PeerId × PeerEntry}
    (hp : p ∈ a.manager.registry.ready) : ∃ v, a.Established settings p v := by
  obtain ⟨hlive, hready⟩ := List.mem_filter.mp hp
  obtain ⟨member, hmember⟩ := h.present p hlive
  obtain ⟨v, hversion, hvouches, hreport⟩ :=
    (h.members p.1 member hmember).completed (.inr ⟨p.2, hlive, hready⟩)
  have hknown : p.2.version = some v := hvouches.known p.2 hlive
  obtain ⟨hmagic, hnonce⟩ := h.discerning.identified.foreign p hlive v hknown
  refine ⟨v, hlive, hready, hknown, hvouches.accepted, ⟨member, hmember, hversion⟩, hreport, hmagic,
    hnonce, fun q hq hne haddress w hw => ?_⟩
  exact h.discerning.identified.distinct q hq p hlive hne haddress w hw v hknown

/-- Every record that is offered is that of an established peer. -/
lemma Sound.offers (h : a.Sound settings) (hselects : choices.Selects) {count : Nat}
    {record : AddressRecord} (hrecord : record ∈ a.manager.connectedPeers choices count) :
    a.Offers settings record := by
  obtain ⟨p, hp, hsuggestion⟩ := Manager.exists_ready_of_mem_connectedPeers hselects hrecord
  obtain ⟨v, hestablished⟩ := h.established hp
  obtain ⟨w, hw, hrecord⟩ := PeerEntry.suggestion_eq_some hsuggestion
  rw [hestablished.known, Option.some.injEq] at hw
  subst hw
  exact ⟨p, v, hestablished, hrecord⟩

/-- However the sessions and the manager take their turns, every connection that is ready is known
by a version that was accepted for it, that its session holds, and that it was reported with before.
So whatever the manager has sent next, other than the order to leave, goes to peers of the same
network that are neither the node itself nor duplicates, and every record that it offers next, in an
answer or in a notice to a stream it turns away, is that of such a peer. -/
theorem established_of_ready (settings : Settings) (events : List Event) :
    let a := after settings events
    (∀ p ∈ a.manager.registry.peers, p.2.ready = true → ∃ v, a.Established settings p v) ∧
    ∀ choices moment c,
      let effects := (a.manager.step choices moment c).2
      (∀ peer sc, .command peer sc ∈ effects → sc ≠ .disconnect .shutdown →
        ∃ e v, a.Established settings (peer, e) v) ∧
      (choices.Selects →
        (∀ peer records, .answer peer (.addresses records) ∈ effects →
          ∀ record ∈ records, a.Offers settings record) ∧
        (∀ d, .rejected (some d) ∈ effects →
          ∃ records, d.data = AddressRecord.encodeList records ∧
            ∀ record ∈ records, a.Offers settings record)) := by
  intro a
  have ha : a.Sound settings := sound_after settings events
  refine ⟨fun p hp hready => ha.established (List.mem_filter.mpr ⟨hp, hready⟩), ?_⟩
  intro choices moment c effects
  have hconcerns : ∀ effect ∈ effects, a.manager.Concerns choices effect :=
    a.manager.step_concerns choices moment c
  refine ⟨fun peer sc hsc hstays => ?_, fun hselects => ⟨fun peer records hanswer => ?_, ?_⟩⟩
  · cases hconcerns _ hsc with
    | @command p hready =>
      obtain ⟨v, hestablished⟩ := ha.established hready
      exact ⟨p.2, v, hestablished⟩
    | farewell => exact absurd rfl hstays
  · cases hconcerns _ hanswer with
    | addresses => exact fun record hrecord => ha.offers hselects hrecord
  · intro d hd
    cases hconcerns _ hd with
    | notice hnotice =>
      refine ⟨_, Manager.data_of_rejectionNotice hnotice, fun record hrecord => ?_⟩
      exact ha.offers hselects (Manager.fitting_subset _ hrecord)

/-- A peer that connects, introduces itself and acknowledges the version is established.  It is sent
what is broadcast, and if it accepts connections it is suggested to others. -/
theorem established_of_ready_after_handshake :
    ∃ (events : List Event) (version : Version) (record : AddressRecord),
      let a := after (.standard (.ofMagic 7 1)) events
      a.accepted = [(⟨1⟩, version)] ∧ a.reports = [(⟨1⟩, .peerReady version)] ∧
      (a.manager.step .first ⟨0, 0⟩ (.broadcast .getAddr)).2 = [.command ⟨1⟩ (.send .getAddr)] ∧
      (∃ e v, a.Established (.standard (.ofMagic 7 1)) (⟨1⟩, e) v) ∧
      (a.manager.step .first ⟨0, 0⟩ (.notice ⟨2⟩ .addressRequest)).2 =
        [.answer ⟨2⟩ (.addresses [record])] ∧
      a.Offers (.standard (.ofMagic 7 1)) record := by
  let settings : Settings := .standard (.ofMagic 7 1)
  let ledger : Ledger := MemoryLedger.toLedger ⟨[], none, [], [], [], [], none, 16⟩
  let now : Moment := ⟨0, 0⟩
  let version : Version :=
    { Identity.version (.ofMagic 7 2) 0 0 with capabilities := [.tcpServer 1] }
  let record : AddressRecord := .ofIp default version.timestamp version.capabilities
  let remote : Endpoint := ⟨default, 1⟩
  let registry : Registry :=
    ⟨[(⟨1⟩, .ofRemote remote .inbound)], (∅ : Std.HashMap Ip Nat).insert default 1, 1⟩
  have hregister : Registry.empty.register remote .inbound 40 3 = .ok (registry, ⟨1⟩) := by
    have hnormal : (default : Ip).normal = default := by decide +kernel
    simp [Registry.register, Registry.empty, Registry.size, Registry.connectionsFrom, remote,
      registry, hnormal]
  let connect : Event := .command .first ledger now (.connect remote .inbound)
  let rest : List Event :=
    [.turn ledger now ⟨1⟩ (.written true),
     .turn ledger now ⟨1⟩ (.item (.message (.version version))),
      .hear .first ledger now ⟨1⟩, .settle ledger now ⟨1⟩, .turn ledger now ⟨1⟩ (.written true),
      .turn ledger now ⟨1⟩ (.item (.message .verack)), .hear .first ledger now ⟨1⟩]
  let connected : Assembly :=
    ⟨{ Manager.start settings with registry },
      Function.update (fun _ => none) ⟨1⟩ (some (Member.start settings ledger 0)), [], []⟩
  have hconnect : advance (start settings) connect = connected := by
    have hstep : (Manager.start settings).step .first now (.connect remote .inbound) =
        ({ Manager.start settings with registry }, [.accepted ⟨1⟩]) := by
      rw [Manager.step_connect_of_isRunning rfl, Manager.connect_of_ok rfl hregister]
    have hcommand : advance (start settings) connect =
        ((Manager.start settings).step .first now (.connect remote .inbound)).2.foldl
          (obey ledger now (.connect remote .inbound))
          { start settings with
            manager :=
              ((Manager.start settings).step .first now (.connect remote .inbound)).1 } := rfl
    rw [hcommand, hstep]
    rfl
  have hafter : after settings (connect :: rest) = rest.foldl advance connected := by
    rw [after, List.foldl_cons, hconnect]
  have haccepted : (after settings (connect :: rest)).accepted = [(⟨1⟩, version)] := by
    rw [hafter]
    rfl
  have hreports : (after settings (connect :: rest)).reports = [(⟨1⟩, .peerReady version)] := by
    rw [hafter]
    rfl
  have hsent :
      ((after settings (connect :: rest)).manager.step .first now (.broadcast .getAddr)).2 =
      [.command ⟨1⟩ (.send .getAddr)] := by
    rw [hafter]
    rfl
  have hoffered : ((after settings (connect :: rest)).manager.step .first now
      (.notice ⟨2⟩ .addressRequest)).2 = [.answer ⟨2⟩ (.addresses [record])] := by
    rw [hafter]
    rfl
  obtain ⟨-, htargets⟩ := established_of_ready settings (connect :: rest)
  obtain ⟨hestablished, -⟩ := htargets .first now (.broadcast .getAddr)
  obtain ⟨-, hoffers⟩ := htargets .first now (.notice ⟨2⟩ .addressRequest)
  obtain ⟨hanswers, -⟩ := hoffers Choices.selects_first
  refine ⟨connect :: rest, version, record, haccepted, hreports, hsent, ?_, hoffered, ?_⟩
  · refine hestablished ⟨1⟩ (.send .getAddr) ?_ SessionCommand.noConfusion
    rw [hsent]
    exact List.mem_cons_self
  · refine hanswers ⟨2⟩ [record] ?_ record List.mem_cons_self
    rw [hoffered]
    exact List.mem_cons_self

end Assembly

end PeerNet
