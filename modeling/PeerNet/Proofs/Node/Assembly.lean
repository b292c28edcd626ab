import PeerNet.Proofs.Manager.Identity
import PeerNet.Proofs.Session.Passage

/-!
# The manager and its sessions

`Assembly` is a manager with the sessions of all connections that it accepted, and with what is on
its way between them: what a session told and the manager has not heard yet, in order, and what the
manager answered and the session has not taken up yet.  Things happen one at a time and in any order
(`Assembly.Event`), and each session is told things of its own.  Two records are kept beside: what
was reported, and which versions the manager accepted.

The manager makes a connection ready when it is told so and does not look at the version.  What it
relies on lies at the other end and on the way: a session says that it is ready only when it took up
a positive verdict, and a positive verdict is for the version that the session holds and for this
session.  `Assembly.MemberSound` says so of every session, wherever its notices and its answer are,
and a session keeps it through whatever happens to it (`Assembly.Sound.turn`).
-/

namespace PeerNet

/-- What a session tells the manager. -/
def SessionEffect.notice? : SessionEffect → Option PeerNotice
  | .notify n => some n
  | .write _ | .report _ | .close => none

/-- What a session tells the coordinator. -/
def SessionEffect.report? : SessionEffect → Option TaskReport
  | .report r => some r
  | .write _ | .notify _ | .close => none

/-- A session with what is on its way between it and the manager. -/
structure Member where
  session : Session
  /-- What it told and the manager has not heard yet, oldest first. -/
  told : List PeerNotice
  /-- What the manager answered and the session has not taken up yet. -/
  answer : Option ManagerAnswer

namespace Member

/-- The session of a new connection, which has told nothing yet. -/
def start (settings : Settings) (ledger : Ledger) (unixTime : UInt32) : Member :=
  ⟨(Session.start settings ledger unixTime).1, [], none⟩

/-- A session that did something. -/
def proceed (member : Member) (r : Session × List SessionEffect) : Member :=
  { member with session := r.1, told := member.told ++ r.2.filterMap SessionEffect.notice? }

end Member

/-- A manager with the sessions of all connections that it accepted. -/
structure Assembly where
  manager : Manager
  members : PeerId → Option Member
  /-- What the coordinator was told, in order. -/
  reports : List (PeerId × TaskReport)
  /-- The versions that the manager accepted, each with the connection, in order. -/
  accepted : List (PeerId × Version)

namespace Assembly

/-- A manager that takes its first command next. -/
def start (settings : Settings) : Assembly := ⟨.start settings, fun _ => none, [], []⟩

/-! ## What happens -/

/-- The version that is accepted by the answer to a command. -/
def consent (c : ManagerCommand) (answer : ManagerAnswer) : List (PeerId × Version) :=
  match c, answer with
  | .notice peer (.introduced version), .verdict (.ok ()) => [(peer, version)]
  | _, _ => []

/-- What the manager wants done on a command is done.  Commands to a session are not kept, since a
session can be told anything at any time. -/
def obey (ledger : Ledger) (moment : Moment) (c : ManagerCommand) (a : Assembly) :
    ManagerEffect → Assembly
  | .accepted peer =>
    let member := Member.start a.manager.settings ledger moment.unixTime
    { a with members := Function.update a.members peer (some member) }
  | .answer peer answer =>
    let member := (a.members peer).map fun member => { member with answer := some answer }
    { a with
      members := Function.update a.members peer member
      accepted := a.accepted ++ consent c answer }
  | .report peer r => { a with reports := a.reports ++ [(peer, r)] }
  | .rejected _ | .command _ _ | .dial _ | .stopped _ => a

/-- The manager takes a command. -/
def command (a : Assembly) (choices : Choices) (ledger : Ledger) (moment : Moment)
    (c : ManagerCommand) : Assembly :=
  let (manager, effects) := a.manager.step choices moment c
  effects.foldl (obey ledger moment c) { a with manager }

/-- Something happens to a session. -/
def turn (a : Assembly) (ledger : Ledger) (moment : Moment) (peer : PeerId) (member : Member)
    (input : SessionInput) : Assembly :=
  let r := member.session.step ledger moment input
  { a with
    members := Function.update a.members peer (some (member.proceed r))
    reports := a.reports ++ (r.2.filterMap SessionEffect.report?).map (peer, ·) }

/-- What can happen next. -/
inductive Event
  /-- The manager takes a command that is not a session's. -/
  | command (choices : Choices) (ledger : Ledger) (moment : Moment) (c : ManagerCommand)
  /-- The manager hears the oldest notice of a session. -/
  | hear (choices : Choices) (ledger : Ledger) (moment : Moment) (peer : PeerId)
  /-- A session is told anything but an answer. -/
  | turn (ledger : Ledger) (moment : Moment) (peer : PeerId) (input : SessionInput)
  /-- A session that waits for an answer takes it up. -/
  | settle (ledger : Ledger) (moment : Moment) (peer : PeerId)

/-- The assembly after something happened; what cannot happen changes nothing. -/
def advance (a : Assembly) : Event → Assembly
  | .command _ _ _ (.notice _ _) => a
  | .command choices ledger moment c => a.command choices ledger moment c
  | .hear choices ledger moment peer =>
    match a.members peer with
    | some ⟨session, n :: told, answer⟩ =>
      let a := { a with members := Function.update a.members peer (some ⟨session, told, answer⟩) }
      a.command choices ledger moment (.notice peer n)
    | some ⟨_, [], _⟩ | none => a
  | .turn _ _ _ (.answer _) => a
  | .turn ledger moment peer input =>
    match a.members peer with
    | some member => a.turn ledger moment peer member input
    | none => a
  | .settle ledger moment peer =>
    match a.members peer with
    | some ⟨session, told, some answer⟩ =>
      if session.phase = .awaitingVerdict ∨ session.phase = .awaitingAddresses then
        a.turn ledger moment peer ⟨session, told, none⟩ (.answer answer)
      else a
    | some ⟨_, _, none⟩ | none => a

/-- The assembly of a node after some events. -/
def after (settings : Settings) (events : List Event) : Assembly :=
  events.foldl advance (start settings)

/-! ## What holds of a session -/

/-- The manager accepted a version for a connection and, as long as that is live, knows it by it. -/
structure Vouches (a : Assembly) (peer : PeerId) (version : Version) : Prop where
  accepted : (peer, version) ∈ a.accepted
  known : ∀ e, (peer, e) ∈ a.manager.registry.peers → e.version = some version

/-- The version that a session holds is there and accepted. -/
def Admitted (a : Assembly) (peer : PeerId) (version : Option Version) : Prop :=
  ∃ v, version = some v ∧ a.Vouches peer v

/-- The version that a session holds is accepted, and the peer was reported as ready with it. -/
def Completed (a : Assembly) (peer : PeerId) (version : Option Version) : Prop :=
  ∃ v, version = some v ∧ a.Vouches peer v ∧ (peer, .peerReady v) ∈ a.reports

/-- Whether a connection is live and ready. -/
def IsReady (a : Assembly) (peer : PeerId) : Prop :=
  ∃ e, (peer, e) ∈ a.manager.registry.peers ∧ e.ready = true

/-- What holds of a session, of what it told and of what it is answered. -/
structure MemberSound (a : Assembly) (peer : PeerId) (member : Member) : Prop where
  coherent : member.session.Coherent
  fresh : member.session.handler.state = .awaitingVersion → member.session.handler.version = none
  introduced : ∀ v, .introduced v ∈ member.told → member.session.handler.version = some v
  admitted : member.answer = some (.verdict (.ok ())) ∨ member.session.IsAdmitted →
    a.Admitted peer member.session.handler.version
  completed : .ready ∈ member.told ∨ a.IsReady peer →
    a.Completed peer member.session.handler.version
  issued : peer.number ≤ a.manager.registry.lastId

/-- What holds of a manager and its sessions. -/
structure Sound (settings : Settings) (a : Assembly) : Prop where
  discerning : a.manager.Discerning settings
  present : ∀ p ∈ a.manager.registry.peers, ∃ member, a.members p.1 = some member
  members : ∀ peer member, a.members peer = some member → a.MemberSound peer member

variable {settings : Settings} {a a' : Assembly} {peer : PeerId} {member : Member}
  {choices : Choices} {ledger : Ledger} {moment : Moment} {c : ManagerCommand}

/-- A manager that starts has no sessions. -/
lemma sound_start (settings : Settings) : (start settings).Sound settings where
  discerning := Manager.discerning_start settings
  present := List.forall_mem_nil _
  members _ _ h := Option.noConfusion rfl (heq_of_eq h)

/-- What holds of a session goes on to hold where the manager knows no less of it, and no more of
its being ready than it should. -/
lemma MemberSound.mono (h : a.MemberSound peer member)
    (hvouches : ∀ v, a.Vouches peer v → a'.Vouches peer v)
    (hready : a'.IsReady peer → a.Completed peer member.session.handler.version)
    (hreports : a.reports ⊆ a'.reports)
    (hlast : a.manager.registry.lastId ≤ a'.manager.registry.lastId) :
    a'.MemberSound peer member := by
  refine ⟨h.coherent, h.fresh, h.introduced, fun hadmitted => ?_, fun hcompleted => ?_,
    h.issued.trans hlast⟩
  · obtain ⟨v, hversion, hv⟩ := h.admitted hadmitted
    exact ⟨v, hversion, hvouches v hv⟩
  · have hbefore : a.Completed peer member.session.handler.version := by
      rcases hcompleted with htold | hlive
      · exact h.completed (.inl htold)
      · exact hready hlive
    obtain ⟨v, hversion, hv, hreported⟩ := hbefore
    exact ⟨v, hversion, hvouches v hv, hreports hreported⟩

/-- It goes on to hold where only reports are added. -/
lemma MemberSound.congr (h : a.MemberSound peer member) (hmanager : a'.manager = a.manager)
    (haccepted : a'.accepted = a.accepted) (hreports : a.reports ⊆ a'.reports) :
    a'.MemberSound peer member := by
  refine h.mono (fun v hv => ⟨?_, ?_⟩) (fun hready => h.completed (.inr ?_)) hreports ?_
  · rw [haccepted]
    exact hv.accepted
  · rw [hmanager]
    exact hv.known
  · rwa [IsReady, hmanager] at hready
  · rw [hmanager]

/-- One session is replaced, and the others are due what they were. -/
lemma Sound.update (h : a.Sound settings) (hdiscerning : a'.manager.Discerning settings)
    (hpresent : ∀ p ∈ a'.manager.registry.peers, p.1 = peer ∨
      ∃ e, (p.1, e) ∈ a.manager.registry.peers)
    (hmembers : a'.members = Function.update a.members peer (some member))
    (hmember : a'.MemberSound peer member)
    (hothers : ∀ other m, other ≠ peer → a.MemberSound other m → a'.MemberSound other m) :
    a'.Sound settings := by
  refine ⟨hdiscerning, fun p hp => ?_, fun other m hm => ?_⟩
  · rw [hmembers]
    by_cases hpeer : p.1 = peer
    · rw [hpeer, Function.update_self]
      exact ⟨member, rfl⟩
    · rw [Function.update_of_ne hpeer]
      obtain ⟨e, he⟩ := (hpresent p hp).resolve_left hpeer
      exact h.present (p.1, e) he
  · rw [hmembers] at hm
    by_cases hpeer : other = peer
    · subst hpeer
      rw [Function.update_self, Option.some.injEq] at hm
      rwa [← hm]
    · rw [Function.update_of_ne hpeer] at hm
      exact hothers other m hpeer (h.members other m hm)

/-- One session is replaced, and the manager has no part in it. -/
lemma Sound.set (h : a.Sound settings) (hmanager : a'.manager = a.manager)
    (haccepted : a'.accepted = a.accepted) (hreports : a.reports ⊆ a'.reports)
    (hmembers : a'.members = Function.update a.members peer (some member))
    (hmember : a.MemberSound peer member) : a'.Sound settings := by
  refine h.update ?_ (fun p hp => ?_) hmembers (hmember.congr hmanager haccepted hreports)
    fun other m _ hm => hm.congr hmanager haccepted hreports
  · rw [hmanager]
    exact h.discerning
  · rw [hmanager] at hp
    exact .inr ⟨p.2, hp⟩

/-! ## A session's turn -/

/-- The notices among some effects are those that tell the manager something. -/
lemma mem_notices {n : PeerNotice} {effects : List SessionEffect} :
    n ∈ effects.filterMap SessionEffect.notice? ↔ .notify n ∈ effects := by
  rw [List.mem_filterMap]
  constructor
  · rintro ⟨effect, hmem, heq⟩
    cases effect with
    | notify n' =>
      cases heq
      exact hmem
    | write m | report r | close => exact Option.noConfusion rfl (heq_of_eq heq)
  · intro hmem
    exact ⟨_, hmem, rfl⟩

/-- A session whose peer has not introduced itself is due nothing. -/
lemma MemberSound.not_admitted (h : a.MemberSound peer member)
    (hnew : member.session.handler.state = .awaitingVersion) :
    ¬ a.Admitted peer member.session.handler.version := by
  rintro ⟨v, hversion, -⟩
  rw [h.fresh hnew] at hversion
  exact Option.noConfusion rfl (heq_of_eq hversion)

/-- Only a peer that was accepted is reported as ready. -/
lemma Completed.admitted {version : Option Version} (h : a.Completed peer version) :
    a.Admitted peer version := by
  obtain ⟨v, hversion, hvouches, -⟩ := h
  exact ⟨v, hversion, hvouches⟩

/-- A session that says nothing about its peer. -/
lemma MemberSound.of_quiet (h : a.MemberSound peer member) {r : Session × List SessionEffect}
    (hcoherent : r.1.Coherent) (hversion : r.1.handler.version = member.session.handler.version)
    (hnew : r.1.handler.state = .awaitingVersion →
      member.session.handler.state = .awaitingVersion)
    (hquiet : Session.Quiet r.2)
    (hadmitted : r.1.IsAdmitted → a.Admitted peer r.1.handler.version) :
    a.MemberSound peer (member.proceed r) := by
  have htold : ∀ n, n.isOfHandshake = true → n ∈ (member.proceed r).told → n ∈ member.told := by
    intro n hhandshake hn
    rcases List.mem_append.mp hn with hn | hn
    · exact hn
    · have hother := hquiet n (mem_notices.mp hn)
      rw [hhandshake] at hother
      exact Bool.noConfusion hother
  refine ⟨hcoherent, fun hstate => ?_, fun v hv => ?_, fun h' => ?_, fun h' => ?_, h.issued⟩
  · exact hversion.trans (h.fresh (hnew hstate))
  · exact hversion.trans (h.introduced v (htold _ rfl hv))
  · rcases h' with hanswer | hstate
    · have hbefore := h.admitted (.inl hanswer)
      rwa [← hversion] at hbefore
    · exact hadmitted hstate
  · have hbefore := h.completed (h'.imp_left (htold _ rfl))
    rwa [← hversion] at hbefore

/-- A session whose peer introduces itself, which it was not admitted as anything before. -/
lemma MemberSound.of_introduced (h : a.MemberSound peer member) {v : Version}
    {r : Session × List SessionEffect} (hcoherent : r.1.Coherent)
    (hnew : member.session.handler.state = .awaitingVersion)
    (hversion : r.1.handler.version = some v) (hstate : r.1.handler.state = .awaitingVerack)
    (hphase : r.1.phase = .awaitingVerdict) (heffects : r.2 = [.notify (.introduced v)]) :
    a.MemberSound peer (member.proceed r) := by
  have htold : ∀ n ∈ (member.proceed r).told, n ∈ member.told ∨ n = .introduced v := by
    intro n hn
    refine (List.mem_append.mp hn).imp_right fun hn => ?_
    rw [mem_notices, heffects, List.mem_singleton] at hn
    exact SessionEffect.notify.inj hn
  refine ⟨hcoherent, fun hstate' => ?_, fun w hw => ?_, fun h' => ?_, fun h' => ?_, h.issued⟩
  · exact HandshakeState.noConfusion (hstate.symm.trans hstate')
  · rcases htold _ hw with hold | heq
    · have hknown := h.introduced w hold
      rw [h.fresh hnew] at hknown
      exact Option.noConfusion rfl (heq_of_eq hknown)
    · rw [PeerNotice.introduced.inj heq]
      exact hversion
  · rcases h' with hanswer | ⟨-, hasked⟩ | hready
    · exact absurd (h.admitted (.inl hanswer)) (h.not_admitted hnew)
    · exact absurd hphase hasked
    · exact HandshakeState.noConfusion (hstate.symm.trans hready)
  · have hbefore : .ready ∈ member.told ∨ a.IsReady peer := by
      refine h'.imp_left fun hready => (htold _ hready).resolve_right ?_
      exact PeerNotice.noConfusion
    exact absurd (h.completed hbefore).admitted (h.not_admitted hnew)

/-- A session that is through the handshake, having been admitted. -/
lemma MemberSound.of_completed (h : a.MemberSound peer member) {r : Session × List SessionEffect}
    (hcoherent : r.1.Coherent) (hadmitted : member.session.IsAdmitted)
    (hversion : r.1.handler.version = member.session.handler.version)
    (hstate : r.1.handler.state = .ready)
    (hready : ∀ n, .notify n ∈ r.2 → n = .ready ∧
      ∃ v, member.session.handler.version = some v ∧ .report (.peerReady v) ∈ r.2)
    (hreported : ∀ report, .report report ∈ r.2 → (peer, report) ∈ a.reports) :
    a.MemberSound peer (member.proceed r) := by
  have hadmitted := h.admitted (.inr hadmitted)
  rw [← hversion] at hadmitted
  refine ⟨hcoherent, fun hnew => ?_, fun v hv => ?_, fun _ => hadmitted, fun h' => ?_, h.issued⟩
  · exact HandshakeState.noConfusion (hstate.symm.trans hnew)
  · rcases List.mem_append.mp hv with hv | hv
    · exact hversion.trans (h.introduced v hv)
    · exact PeerNotice.noConfusion (hready _ (mem_notices.mp hv)).1
  · by_cases hbefore : .ready ∈ member.told ∨ a.IsReady peer
    · have hcompleted := h.completed hbefore
      rwa [← hversion] at hcompleted
    · obtain ⟨hnever, hother⟩ := not_or.mp hbefore
      have hnow := (List.mem_append.mp (h'.resolve_right hother)).resolve_left hnever
      obtain ⟨-, v, hknown, hreport⟩ := hready _ (mem_notices.mp hnow)
      obtain ⟨v', hknown', hvouches⟩ := hadmitted
      rw [hversion, hknown, Option.some.injEq] at hknown'
      subst hknown'
      exact ⟨v, hversion.trans hknown, hvouches, hreported _ hreport⟩

/-- A positive verdict is for the session that it is given to; whatever else happens to a session
may happen at any time. -/
lemma Sound.turn (h : a.Sound settings) (hmember : a.MemberSound peer member)
    (ledger : Ledger) (moment : Moment) {input : SessionInput}
    (hverdict : input = .answer (.verdict (.ok ())) →
      a.Admitted peer member.session.handler.version) :
    (a.turn ledger moment peer member input).Sound settings := by
  let r := member.session.step ledger moment input
  let reports := a.reports ++ (r.2.filterMap SessionEffect.report?).map (peer, ·)
  have hreported : ∀ report, .report report ∈ r.2 → (peer, report) ∈ reports := by
    intro report hreport
    refine List.mem_append_right _ (List.mem_map.mpr ⟨report, ?_, rfl⟩)
    exact List.mem_filterMap.mpr ⟨_, hreport, rfl⟩
  have hlogged : { a with reports }.Sound settings := by
    refine ⟨h.discerning, h.present, fun other m hm => ?_⟩
    exact (h.members other m hm).congr rfl rfl (List.subset_append_left _ _)
  have hbefore : { a with reports }.MemberSound peer member :=
    hmember.congr rfl rfl (List.subset_append_left _ _)
  have hcoherent : r.1.Coherent := hmember.coherent.step ledger moment input
  have hafter : { a with reports }.MemberSound peer (member.proceed r) := by
    have hpassage : member.session.Passage input r :=
      Session.step_passage hmember.coherent ledger moment input
    cases hpassage with
    | steady hversion hnew hadmitted hquiet =>
      refine hbefore.of_quiet hcoherent hversion hnew hquiet fun hstate => ?_
      rw [hversion]
      exact hbefore.admitted (.inr (hadmitted hstate))
    | introduced v hnew hversion hstate hphase heffects =>
      exact hbefore.of_introduced hcoherent hnew hversion hstate hphase heffects
    | admitted hinput hversion hstate hquiet =>
      refine hbefore.of_quiet hcoherent hversion (fun hnew => ?_) hquiet fun _ => ?_
      · exact HandshakeState.noConfusion (hstate.symm.trans hnew)
      · obtain ⟨v, hknown, hvouches⟩ := hverdict hinput
        exact ⟨v, hversion.trans hknown, hvouches.accepted, hvouches.known⟩
    | completed hadmitted hversion hstate hready =>
      exact hbefore.of_completed hcoherent hadmitted hversion hstate hready hreported
  exact hlogged.set rfl rfl (List.Subset.refl _) rfl hafter

end Assembly

end PeerNet
