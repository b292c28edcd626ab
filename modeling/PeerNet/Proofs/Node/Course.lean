import PeerNet.Proofs.Node.Established
import PeerNet.Proofs.Session.Course

/-!
# Everything that can happen to an assembly

`Assembly.Advances` goes through what an event can come to: the manager takes a command of its own
or one of a session, something happens to a session, or nothing comes of it.  What a command makes
of the sessions is said apart (`Assembly.continues_command`): a session is there after it because it
was there before, in the same state, or because it is the session of a connection that was accepted
now; and an answer waits for it that waited before, or that the manager gives now.
-/

namespace PeerNet

namespace Assembly

variable {settings : Settings} {a : Assembly} {peer : PeerId} {member member' : Member}
  {effects : List ManagerEffect} {choices : Choices} {ledger : Ledger} {moment : Moment}
  {c : ManagerCommand}

/-! ## An event -/

/-- What an event comes to. -/
inductive Advances (a : Assembly) : Event → Assembly → Prop
  | unchanged (event : Event) : Advances a event a
  | commanded (choices : Choices) (ledger : Ledger) (moment : Moment) {c : ManagerCommand}
    (hown : ∀ peer n, c ≠ .notice peer n) :
    Advances a (.command choices ledger moment c) (a.command choices ledger moment c)
  | heard (choices : Choices) (ledger : Ledger) (moment : Moment) {peer : PeerId}
    {session : Session} {n : PeerNotice} {told : List PeerNotice} {answer : Option ManagerAnswer}
    (hmember : a.members peer = some ⟨session, n :: told, answer⟩) :
    Advances a (.hear choices ledger moment peer)
      (({ a with members := Function.update a.members peer (some ⟨session, told, answer⟩) } :
        Assembly).command choices ledger moment (.notice peer n))
  | turned (ledger : Ledger) (moment : Moment) {peer : PeerId} {member : Member}
    {input : SessionInput} (hmember : a.members peer = some member)
    (hunasked : ∀ answer, input ≠ .answer answer) :
    Advances a (.turn ledger moment peer input) (a.turn ledger moment peer member input)
  | settled (ledger : Ledger) (moment : Moment) {peer : PeerId} {session : Session}
    {told : List PeerNotice} {answer : ManagerAnswer}
    (hmember : a.members peer = some ⟨session, told, some answer⟩) :
    Advances a (.settle ledger moment peer)
      (a.turn ledger moment peer ⟨session, told, none⟩ (.answer answer))

/-- Every event is a command to the manager, a turn of one session, or nothing at all. -/
lemma advance_advances (a : Assembly) (event : Event) : a.Advances event (a.advance event) := by
  unfold advance
  split
  · exact .unchanged _
  · next hown => exact .commanded _ _ _ fun peer n heq => hown peer n heq
  · split
    · next hmember => exact .heard _ _ _ hmember
    · exact .unchanged _
    · exact .unchanged _
  · exact .unchanged _
  · next hunasked =>
    split
    · next hmember => exact .turned _ _ hmember hunasked
    · exact .unchanged _
  · split
    · next hmember =>
      split
      · exact .settled _ _ hmember
      · exact .unchanged _
    · exact .unchanged _
    · exact .unchanged _

/-- A turn is that of one session. -/
lemma members_turn {input : SessionInput} {other : PeerId}
    (h : (a.turn ledger moment peer member input).members other = some member') :
    other = peer ∧ member' = member.proceed (member.session.step ledger moment input) ∨
      other ≠ peer ∧ a.members other = some member' := by
  unfold turn at h
  dsimp only at h
  by_cases hpeer : other = peer
  · subst hpeer
    rw [Function.update_self, Option.some.injEq] at h
    exact .inl ⟨rfl, h.symm⟩
  · rw [Function.update_of_ne hpeer] at h
    exact .inr ⟨hpeer, h⟩

/-! ## The sessions, after a command -/

/-- Where the answer comes from that waits for a session. -/
def AnswersWith (effects : List ManagerEffect) (peer : PeerId)
    (before after : Option ManagerAnswer) : Prop :=
  after = before ∨ ∃ answer, after = some answer ∧ .answer peer answer ∈ effects

/-- Where a session comes from that is there after some effects. -/
inductive Continues (a : Assembly) (effects : List ManagerEffect) (peer : PeerId)
    (member' : Member) : Prop
  | same {member : Member} (hmember : a.members peer = some member)
    (hsession : member'.session = member.session) (htold : member'.told = member.told)
    (hanswer : AnswersWith effects peer member.answer member'.answer)
  | new (settings : Settings) (ledger : Ledger) (unixTime : UInt32)
    (haccepted : .accepted peer ∈ effects)
    (hsession : member'.session = (Session.start settings ledger unixTime).1)
    (htold : member'.told = []) (hanswer : AnswersWith effects peer none member'.answer)

lemma AnswersWith.mono {effects' : List ManagerEffect} {before after : Option ManagerAnswer}
    (h : AnswersWith effects peer before after) (hsub : effects ⊆ effects') :
    AnswersWith effects' peer before after :=
  h.imp_right fun ⟨answer, hanswer, hmem⟩ => ⟨answer, hanswer, hsub hmem⟩

lemma Continues.mono {effects' : List ManagerEffect} (h : a.Continues effects peer member)
    (hsub : effects ⊆ effects') : a.Continues effects' peer member := by
  cases h with
  | same hmember hsession htold hanswer => exact .same hmember hsession htold (hanswer.mono hsub)
  | new settings ledger unixTime haccepted hsession htold hanswer =>
    exact .new settings ledger unixTime (hsub haccepted) hsession htold (hanswer.mono hsub)

/-- An answer is all that an effect changes of a session that is there. -/
lemma Continues.answered (h : a.Continues effects peer member) {answer : ManagerAnswer}
    (hmem : .answer peer answer ∈ effects) :
    a.Continues effects peer { member with answer := some answer } := by
  cases h with
  | same hmember hsession htold _ => exact .same hmember hsession htold (.inr ⟨answer, rfl, hmem⟩)
  | new settings ledger unixTime haccepted hsession htold _ =>
    exact .new settings ledger unixTime haccepted hsession htold (.inr ⟨answer, rfl, hmem⟩)

/-- Doing what the manager wants does not change the manager. -/
lemma manager_obeyAll (ledger : Ledger) (moment : Moment) (c : ManagerCommand)
    (effects : List ManagerEffect) (a : Assembly) :
    (effects.foldl (obey ledger moment c) a).manager = a.manager := by
  induction effects generalizing a with
  | nil => rfl
  | cons effect rest ih =>
    rw [List.foldl_cons, ih]
    cases effect <;> rfl

/-- A connection that is accepted gets a session that starts. -/
lemma obey_accepted (a : Assembly) (ledger : Ledger) (moment : Moment) (c : ManagerCommand)
    (peer : PeerId) :
    (a.obey ledger moment c (.accepted peer)).members peer =
      some (Member.start a.manager.settings ledger moment.unixTime) :=
  Function.update_self ..

/-- An answer waits for the session that it is for. -/
lemma obey_answer (a : Assembly) (ledger : Ledger) (moment : Moment) (c : ManagerCommand)
    (peer : PeerId) (answer : ManagerAnswer) :
    (a.obey ledger moment c (.answer peer answer)).members peer =
      (a.members peer).map fun member => { member with answer := some answer } :=
  Function.update_self ..

/-- A session that is there after all effects was there before, or was accepted among them. -/
lemma continues_obeyAll (ledger : Ledger) (moment : Moment) (c : ManagerCommand)
    (effects : List ManagerEffect) (a : Assembly) {peer : PeerId} {member' : Member}
    (h : (effects.foldl (obey ledger moment c) a).members peer = some member') :
    a.Continues effects peer member' := by
  induction effects using List.reverseRecOn generalizing member' with
  | nil => exact .same h rfl rfl (.inl rfl)
  | append_singleton effects effect ih =>
    have hsub : effects ⊆ effects ++ [effect] := List.subset_append_left _ _
    have hlast : effect ∈ effects ++ [effect] := List.mem_append_right _ List.mem_cons_self
    rw [List.foldl_append, List.foldl_cons, List.foldl_nil] at h
    cases effect with
    | accepted peer' =>
      by_cases hpeer : peer = peer'
      · subst hpeer
        rw [obey_accepted, Option.some.injEq] at h
        subst h
        exact .new _ ledger moment.unixTime hlast rfl rfl (.inl rfl)
      · exact (ih ((Function.update_of_ne hpeer ..).symm.trans h)).mono hsub
    | answer peer' answer =>
      by_cases hpeer : peer = peer'
      · subst hpeer
        rw [obey_answer] at h
        obtain ⟨member, hmember, rfl⟩ := Option.map_eq_some_iff.mp h
        exact ((ih hmember).mono hsub).answered hlast
      · exact (ih ((Function.update_of_ne hpeer ..).symm.trans h)).mono hsub
    | report | rejected | command | dial | stopped => exact (ih h).mono hsub

/-- Of a command, the manager takes its own step. -/
lemma manager_command (a : Assembly) (choices : Choices) (ledger : Ledger) (moment : Moment)
    (c : ManagerCommand) :
    (a.command choices ledger moment c).manager = (a.manager.step choices moment c).1 :=
  manager_obeyAll ledger moment c _ _

/-- A session is there after a command because it was there before, or because its connection is
accepted now. -/
lemma continues_command (a : Assembly) (choices : Choices) (ledger : Ledger) (moment : Moment)
    (c : ManagerCommand) {peer : PeerId} {member' : Member}
    (h : (a.command choices ledger moment c).members peer = some member') :
    a.Continues (a.manager.step choices moment c).2 peer member' := by
  have hcontinues := continues_obeyAll ledger moment c (a.manager.step choices moment c).2
    { a with manager := (a.manager.step choices moment c).1 } h
  cases hcontinues with
  | same hmember hsession htold hanswer => exact .same hmember hsession htold hanswer
  | new settings ledger unixTime haccepted hsession htold hanswer =>
    exact .new settings ledger unixTime haccepted hsession htold hanswer

/-- A connection that is accepted has the next number. -/
lemma number_of_accepted {m : Manager} (hconsistent : m.registry.Consistent)
    (haccepted : .accepted peer ∈ (m.step choices moment c).2) :
    peer.number = m.registry.lastId + 1 := by
  have hrevision := Manager.step_revision hconsistent choices moment c
  generalize m.step choices moment c = r at hrevision haccepted
  have hnever : ∀ effects : List ManagerEffect, (∀ effect ∈ effects, effect.isPlain = true) →
      .accepted peer ∉ effects :=
    fun effects hplain hmem => Bool.noConfusion (hplain _ hmem)
  cases hrevision with
  | admitted _ _ _ heffects hrest =>
    rw [heffects] at haccepted
    rcases List.mem_cons.mp haccepted with heq | hmem
    · rw [ManagerEffect.accepted.inj heq]
    · exact absurd hmem (hnever _ hrest)
  | identified _ _ _ _ _ heffects hrest =>
    rw [heffects] at haccepted
    rcases List.mem_cons.mp haccepted with heq | hmem
    · exact ManagerEffect.noConfusion heq
    · exact absurd hmem (hnever _ hrest)
  | routine _ _ hplain => exact absurd haccepted (hnever _ hplain)

/-! ## The first connection -/

/-- A node that has accepted one connection. -/
def firstMet (settings : Settings) (ledger : Ledger) (unixTime : UInt32) (remote : Endpoint)
    (direction : Direction) : Assembly :=
  let registry : Registry :=
    ⟨[(⟨1⟩, .ofRemote remote direction)], (∅ : Std.HashMap Ip Nat).insert remote.ip.normal 1, 1⟩
  ⟨{ Manager.start settings with registry },
    Function.update (fun _ => none) ⟨1⟩ (some (Member.start settings ledger unixTime)), [], []⟩

/-- A new node accepts a connection if it accepts any. -/
lemma advance_connect (hroom : 0 < settings.maxConnections)
    (haddress : 0 < settings.maxConnectionsPerAddress) (choices : Choices) (ledger : Ledger)
    (moment : Moment) (remote : Endpoint) (direction : Direction) :
    (start settings).advance (.command choices ledger moment (.connect remote direction)) =
      firstMet settings ledger moment.unixTime remote direction := by
  let registry : Registry :=
    ⟨[(⟨1⟩, .ofRemote remote direction)], (∅ : Std.HashMap Ip Nat).insert remote.ip.normal 1, 1⟩
  have hplace : (Manager.start settings).registry.size <
      (Manager.start settings).settings.maxConnections := hroom
  have hportion : (Manager.start settings).registry.countFrom remote.ip.normal <
      (Manager.start settings).settings.maxConnectionsPerAddress := haddress
  have hstep : (Manager.start settings).step choices moment (.connect remote direction) =
      ({ Manager.start settings with registry }, [.accepted ⟨1⟩]) :=
    Manager.step_connect_of_room rfl Registry.consistent_empty hplace hportion choices moment
      direction
  let c : ManagerCommand := .connect remote direction
  have hcommand : (start settings).advance (.command choices ledger moment c) =
      ((Manager.start settings).step choices moment c).2.foldl (obey ledger moment c)
        { start settings with manager := ((Manager.start settings).step choices moment c).1 } := rfl
  rw [hcommand, hstep]
  rfl

/-- How the peer of that connection introduces itself and becomes ready. -/
def handshake (ledger : Ledger) (moment : Moment) (version : Version) : List Event :=
  [.turn ledger moment ⟨1⟩ (.written true),
    .turn ledger moment ⟨1⟩ (.item (.message (.version version))),
    .hear .first ledger moment ⟨1⟩, .settle ledger moment ⟨1⟩,
    .turn ledger moment ⟨1⟩ (.written true), .turn ledger moment ⟨1⟩ (.item (.message .verack)),
    .hear .first ledger moment ⟨1⟩]

end Assembly

end PeerNet
