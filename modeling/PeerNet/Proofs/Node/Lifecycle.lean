import PeerNet.Proofs.Manager.Presence
import PeerNet.Proofs.Node.Filters
import PeerNet.Proofs.Session.Lifecycle
import PeerNet.Proofs.Simulation.Moves

/-!
# From the first message of a session to the end of its connection

A session passes its milestones in order and each once, however it ends, and at a line its stream is
closed exactly when it is over.  The manager gives up a connection when it hears that the session is
over, and a session says so once, when it is.  So every connection is given up at most once and
never too early, and none is kept whose session is over once all is heard (`Assembly.Attends`).
-/

namespace PeerNet

namespace Line

open Session (Turn History)

variable {settings : Settings} {ledger : Ledger} {moment : Moment} {l : Line}

/-! ## The stream of a session -/

/-- Only one effect closes the node's end. -/
lemma localEnd_foldl_apply {now : Nat} {effects : List SessionEffect} (hclose : .close ∉ effects)
    (hend : l.localEnd ≠ .closed) : (effects.foldl (apply now) l).localEnd ≠ .closed := by
  induction effects generalizing l with
  | nil => exact hend
  | cons effect rest ih =>
    obtain ⟨heffect, hrest⟩ := not_or.mp (mt List.mem_cons.mpr hclose)
    refine ih hrest ?_
    cases effect with
    | write m =>
      rw [apply]
      split
      · exact LocalEnd.noConfusion
      · exact hend
      · exact hend
    | close => exact absurd rfl heffect
    | notify | report => exact hend

/-- What is delivered to a connection does not close its end. -/
lemma localEnd_deliver (f : Connection → Connection) (hend : l.localEnd ≠ .closed) :
    (l.deliver f).localEnd ≠ .closed := by
  rw [deliver]
  split
  · exact LocalEnd.noConfusion
  · exact hend
  · exact hend

/-- The timer does not close an end. -/
lemma localEnd_ring (now : Nat) (hend : l.localEnd ≠ .closed) :
    (l.ring settings now).localEnd ≠ .closed := by
  rw [ring]
  split
  · split
    · exact LocalEnd.noConfusion
    · exact hend
  · exact hend
  · exact hend

/-- Reading does not close an end. -/
lemma localEnd_moveIntake (hend : l.localEnd ≠ .closed) :
    ((l.moveIntake.map Move.line).getD l).localEnd ≠ .closed := by
  rw [moveIntake]
  split
  · split
    · exact hend
    · exact LocalEnd.noConfusion
  · exact hend
  · exact hend

namespace Run

variable {run : Run} {peer : PeerId}

/-- The node's end is closed only by a turn that is the last of its session. -/
def ClosesAtEnd (run : Run) : Prop :=
  run.line.localEnd = .closed → ∃ t, run.turns.getLast? = some t ∧ t.after.phase = .over

/-- The end of a new session is open. -/
lemma closesAtEnd_start (settings : Settings) (ledger : Ledger) (moment : Moment) (peer : PeerId)
    (l : Line) : (start settings ledger moment peer l).ClosesAtEnd :=
  fun hclosed => LocalEnd.noConfusion hclosed

/-- What happens aside from the session does not close its end. -/
lemma ClosesAtEnd.congr (h : run.ClosesAtEnd) {line : Line}
    (hopen : run.line.localEnd ≠ .closed → line.localEnd ≠ .closed) :
    ClosesAtEnd { run with line } :=
  fun hclosed => h (not_not.mp fun hne => hopen hne hclosed)

/-- Every event leaves an end that only the last turn of its session closes. -/
lemma ClosesAtEnd.advance (h : run.ClosesAtEnd) {event : Event}
    (hsound : (run.advance settings event).Sound settings ledger moment) :
    (run.advance settings event).ClosesAtEnd := by
  cases event with
  | session ledger' moment' =>
    have hmoves := moves settings ledger' moment' run
    generalize run.advance settings (.session ledger' moment') = run' at hsound hmoves
    cases hmoves with
    | rests => exact h
    | writes => exact fun hclosed => LocalEnd.noConfusion hclosed
    | turn =>
      intro hclosed
      obtain ⟨s, hhistory, -⟩ := hsound
      obtain ⟨hbefore, hdue, -⟩ := hhistory.of_append
      refine ⟨_, List.getLast?_concat, ?_⟩
      by_contra hlive
      exact localEnd_foldl_apply (Session.close_notMem_step hbefore.coherent hdue hlive)
        LocalEnd.noConfusion hclosed
  | intake => exact h.congr localEnd_moveIntake
  | command | answer => exact h.congr (localEnd_deliver _)
  | ring now => exact h.congr (localEnd_ring now)
  | inbound | outbound => exact h.congr id

/-- After all events an end is closed only by the last turn of its session. -/
lemma closesAtEnd_after (settings : Settings) (ledger : Ledger) (moment : Moment) (peer : PeerId)
    (l : Line) (events : List Event) :
    (after settings ledger moment peer l events).ClosesAtEnd := by
  induction events using List.reverseRecOn with
  | nil => exact closesAtEnd_start settings ledger moment peer l
  | append_singleton events event ih =>
    have hsound := sound_after settings ledger moment peer l (events ++ [event])
    rw [after, List.foldl_append] at hsound ⊢
    exact ih.advance hsound

/-- The node's end of a line is closed exactly when the session there is over. -/
lemma closed_iff_over {s : Session} (settings : Settings) (ledger : Ledger) (moment : Moment)
    (peer : PeerId) (l : Line) (events : List Event)
    (h : History settings ledger moment.unixTime
      (after settings ledger moment peer l events).turns s) :
    (after settings ledger moment peer l events).line.localEnd = .closed ↔ s.phase = .over := by
  constructor
  · intro hclosed
    obtain ⟨t, hlast, hover⟩ := closesAtEnd_after settings ledger moment peer l events hclosed
    rw [h.eq_last, hlast]
    exact hover
  · intro hover
    obtain ⟨s', hhistory, hstanding⟩ := sound_after settings ledger moment peer l events
    rw [h.eq_last.trans hhistory.eq_last.symm] at hover
    exact not_not.mp fun hopen => hstanding.ne_over hopen hover

end Run

end Line

namespace Assembly

variable {settings : Settings} {a : Assembly} {peer : PeerId} {member : Member}
  {choices : Choices} {ledger : Ledger} {moment : Moment} {c : ManagerCommand}

/-! ## The connection of a session -/

/-- How the end of a session has come through to the manager: it is still to come, or the manager is
still to hear of it, or the connection is given up. -/
inductive Attends (a : Assembly) (peer : PeerId) (member : Member) : Prop
  | present (hphase : member.session.phase ≠ .over) (htold : .disconnected ∉ member.told)
    (hlive : peer ∈ a.manager.registry.ids)
  | leaving {told : List PeerNotice} (hphase : member.session.phase = .over)
    (htold : member.told = told ++ [.disconnected]) (hearlier : .disconnected ∉ told)
    (hlive : peer ∈ a.manager.registry.ids)
  | gone (hphase : member.session.phase = .over) (htold : member.told = [])
    (hgone : peer ∉ a.manager.registry.ids)

/-- The manager is attended to by every session. -/
def Attended (a : Assembly) : Prop :=
  ∀ peer member, a.members peer = some member → a.Attends peer member

/-- Where there are no sessions, all of them attend to the manager. -/
lemma attended_start (settings : Settings) : (start settings).Attended :=
  fun _ _ h => Option.noConfusion rfl (heq_of_eq h)

/-- Where the session, what it told and who is live stay the same, it goes on as it was. -/
lemma Attends.congr (h : a.Attends peer member) {a' : Assembly} {member' : Member}
    (hsession : member'.session = member.session) (htold : member'.told = member.told)
    (hids : peer ∈ a'.manager.registry.ids ↔ peer ∈ a.manager.registry.ids) :
    a'.Attends peer member' := by
  cases h with
  | present hphase hnever hlive =>
    rw [← hsession] at hphase
    rw [← htold] at hnever
    exact .present hphase hnever (hids.mpr hlive)
  | leaving hphase htold' hearlier hlive =>
    rw [← hsession] at hphase
    exact .leaving hphase (htold.trans htold') hearlier (hids.mpr hlive)
  | gone hphase hnone hgone =>
    rw [← hsession] at hphase
    exact .gone hphase (htold.trans hnone) (mt hids.mp hgone)

/-- Something happens to a session. -/
lemma Attends.proceed (h : a.Attends peer member) (hcoherent : member.session.Coherent)
    (ledger : Ledger) (moment : Moment) (input : SessionInput) :
    a.Attends peer (member.proceed (member.session.step ledger moment input)) := by
  by_cases hover : member.session.phase = .over
  · rw [Session.step_of_over hover, Member.proceed, List.filterMap_nil, List.append_nil]
    exact h
  · cases h with
    | present _ htold hlive =>
      have hstage := Session.step_stage hcoherent hover ledger moment input
      generalize member.session.step ledger moment input = r at hstage
      rcases hstage.notices with ⟨hphase, hnever⟩ | ⟨hphase, before, heffects, hnever⟩
      · refine .present hphase (fun hmem => ?_) hlive
        exact (List.mem_append.mp hmem).elim htold fun hmem => hnever (mem_notices.mp hmem)
      · have htold' : (member.proceed r).told =
            (member.told ++ before.filterMap SessionEffect.notice?) ++ [.disconnected] := by
          rw [Member.proceed, heffects, List.filterMap_append, List.append_assoc]
          rfl
        refine .leaving hphase htold' (fun hmem => ?_) hlive
        exact (List.mem_append.mp hmem).elim htold fun hmem => hnever (mem_notices.mp hmem)
    | leaving hphase | gone hphase => exact absurd hphase hover

/-- A number that was given out is not given out again. -/
lemma accepted_notMem (hconsistent : a.manager.registry.Consistent)
    (hissued : peer.number ≤ a.manager.registry.lastId) :
    .accepted peer ∉ (a.manager.step choices moment c).2 := by
  intro haccepted
  rw [number_of_accepted hconsistent haccepted] at hissued
  exact Nat.not_succ_le_self _ hissued

/-- A command that does not end a connection leaves it as it was; one that does is the last that the
manager hears of the session. -/
lemma attends_command (hsound : a.Sound settings) (hvacant : a.manager.Vacant)
    (hothers : c ≠ .notice peer .disconnected →
      ∀ member, a.members peer = some member → a.Attends peer member)
    (hlast : c = .notice peer .disconnected →
      ∀ member, a.members peer = some member → member.session.phase = .over ∧ member.told = [])
    (hmember : (a.command choices ledger moment c).members peer = some member) :
    (a.command choices ledger moment c).Attends peer member := by
  have hconsistent := hsound.discerning.consistent
  have hids : peer ∈ (a.command choices ledger moment c).manager.registry.ids ↔
      (peer ∈ a.manager.registry.ids ∧ c ≠ .notice peer .disconnected) ∨
        .accepted peer ∈ (a.manager.step choices moment c).2 := by
    rw [manager_command]
    exact Manager.mem_ids_step hvacant hconsistent choices moment c
  cases a.continues_command choices ledger moment c hmember with
  | new _ _ _ haccepted hsession htold =>
    refine .present ?_ ?_ (hids.mpr (.inr haccepted))
    · rw [hsession]
      exact SessionPhase.noConfusion
    · rw [htold]
      exact List.not_mem_nil
  | @same before hbefore hsession htold =>
    rw [or_iff_left (accepted_notMem hconsistent (hsound.members peer before hbefore).issued)]
      at hids
    by_cases hc : c = .notice peer .disconnected
    · obtain ⟨hphase, hnone⟩ := hlast hc before hbefore
      refine .gone ?_ (htold.trans hnone) fun hlive => (hids.mp hlive).2 hc
      rwa [hsession]
    · exact (hothers hc before hbefore).congr hsession htold (hids.trans (and_iff_left hc))

/-- The manager hears the oldest notice of a session. -/
lemma Attends.hear {session : Session} {n : PeerNotice} {told : List PeerNotice}
    {answer : Option ManagerAnswer} (h : a.Attends peer ⟨session, n :: told, answer⟩) :
    (n ≠ .disconnected → a.Attends peer ⟨session, told, answer⟩) ∧
      (n = .disconnected → session.phase = .over ∧ told = []) := by
  cases h with
  | present hphase htold hlive =>
    obtain ⟨hhead, hrest⟩ := not_or.mp (mt List.mem_cons.mpr htold)
    exact ⟨fun _ => .present hphase hrest hlive, fun hn => absurd hn.symm hhead⟩
  | @leaving earlier hphase htold hearlier hlive =>
    cases earlier with
    | nil =>
      obtain ⟨rfl, rfl⟩ := List.cons.inj htold
      exact ⟨fun hne => absurd rfl hne, fun _ => ⟨hphase, rfl⟩⟩
    | cons first earlier =>
      obtain ⟨rfl, rfl⟩ := List.cons.inj htold
      obtain ⟨hhead, hrest⟩ := not_or.mp (mt List.mem_cons.mpr hearlier)
      exact ⟨fun _ => .leaving hphase rfl hrest hlive, fun hn => absurd hn.symm hhead⟩
  | gone _ htold => exact absurd htold (List.cons_ne_nil _ _)

/-- What happens to a session, or at the manager, keeps the manager attended to. -/
lemma Attended.advance (h : a.Attended) (hsound : a.Sound settings) (hvacant : a.manager.Vacant)
    (event : Event) : (a.advance event).Attended := by
  intro other member' hmember'
  have hadvances := a.advance_advances event
  generalize a.advance event = a' at hadvances hmember' ⊢
  cases hadvances with
  | unchanged => exact h other member' hmember'
  | commanded choices ledger moment hown =>
    refine attends_command hsound hvacant (fun _ => h other) (fun hc => ?_) hmember'
    exact absurd hc (hown _ _)
  | @heard choices ledger moment peer session n told answer hmember =>
    obtain ⟨hrest, hlast⟩ := (h peer _ hmember).hear
    refine attends_command (hsound.hear hmember) hvacant (fun hc m hm => ?_) (fun hc m hm => ?_)
      hmember'
    all_goals dsimp only at hm
    · by_cases hpeer : other = peer
      · subst hpeer
        rw [Function.update_self, Option.some.injEq] at hm
        subst hm
        exact (hrest fun hn => hc (by rw [hn])).congr rfl rfl Iff.rfl
      · rw [Function.update_of_ne hpeer] at hm
        exact (h other m hm).congr rfl rfl Iff.rfl
    · obtain ⟨rfl, hn⟩ := ManagerCommand.notice.inj hc
      rw [Function.update_self, Option.some.injEq] at hm
      subst hm
      exact hlast hn
  | turned ledger moment hmember =>
    obtain ⟨rfl, rfl⟩ | ⟨-, hm⟩ := members_turn hmember'
    · have hcoherent := (hsound.members _ _ hmember).coherent
      exact ((h _ _ hmember).proceed hcoherent ledger moment _).congr rfl rfl Iff.rfl
    · exact (h other _ hm).congr rfl rfl Iff.rfl
  | @settled ledger moment peer session told answer hmember =>
    obtain ⟨rfl, rfl⟩ | ⟨-, hm⟩ := members_turn hmember'
    · have hcoherent := (hsound.members _ _ hmember).coherent
      have hasked : a.Attends other ⟨session, told, none⟩ := (h _ _ hmember).congr rfl rfl Iff.rfl
      exact (hasked.proceed hcoherent ledger moment _).congr rfl rfl Iff.rfl
    · exact (h other _ hm).congr rfl rfl Iff.rfl

/-- After all events every session attends to the manager. -/
lemma attended_after (settings : Settings) (events : List Event) :
    (after settings events).Attended := by
  induction events using List.reverseRecOn with
  | nil => exact attended_start settings
  | append_singleton events event ih =>
    rw [after, List.foldl_append]
    exact ih.advance (sound_after settings events) (mirrors_after settings events).vacant event

/-! ## Giving up a connection -/

/-- What an event does to the manager is that it takes a command, if anything. -/
lemma Advances.manager {event : Event} {a' : Assembly} (h : a.Advances event a') :
    a'.manager = a.manager ∨
      ∃ choices moment c, a'.manager = (a.manager.step choices moment c).1 := by
  cases h with
  | unchanged | turned | settled => exact .inl rfl
  | commanded | heard => exact .inr ⟨_, _, _, manager_command ..⟩

/-- A connection is given up as soon as its session is over and the manager has heard all of it. -/
lemma Attended.notMem_ids_iff (h : a.Attended) (hmember : a.members peer = some member) :
    peer ∉ a.manager.registry.ids ↔ member.session.phase = .over ∧ member.told = [] := by
  cases h peer member hmember with
  | present hphase _ hlive => exact iff_of_false (not_not.mpr hlive) fun hover => hphase hover.1
  | leaving _ htold _ hlive =>
    refine iff_of_false (not_not.mpr hlive) fun hover => ?_
    rw [htold] at hover
    exact List.append_ne_nil_of_right_ne_nil _ (List.cons_ne_nil _ _) hover.2
  | gone hphase hnone hgone => exact iff_of_true hgone ⟨hphase, hnone⟩

/-- A connection is given up on the last notice of its session, when that is over. -/
lemma Attended.over_of_given_up (h : a.Attended) (hsound : a.Sound settings)
    (hvacant : a.manager.Vacant) {event : Event} (hlive : peer ∈ a.manager.registry.ids)
    (hgone : peer ∉ (a.advance event).manager.registry.ids) :
    ∃ member, a.members peer = some member ∧ member.session.phase = .over ∧
      member.told = [.disconnected] := by
  have hconsistent := hsound.discerning.consistent
  have hadvances := a.advance_advances event
  generalize a.advance event = a' at hadvances hgone
  cases hadvances with
  | unchanged | turned | settled => exact absurd hlive hgone
  | @commanded choices ledger moment c hown =>
    rw [manager_command, Manager.mem_ids_step hvacant hconsistent] at hgone
    exact absurd (.inl ⟨hlive, hown _ _⟩) hgone
  | @heard choices ledger moment peer' session n told answer hmember =>
    have hnotice : ManagerCommand.notice peer' n = .notice peer .disconnected := by
      rw [manager_command] at hgone
      refine not_not.mp fun hne => hgone ?_
      exact (Manager.mem_ids_step hvacant hconsistent choices moment _).mpr (.inl ⟨hlive, hne⟩)
    obtain ⟨rfl, rfl⟩ := ManagerCommand.notice.inj hnotice
    obtain ⟨hphase, hnone⟩ := (h _ _ hmember).hear.2 rfl
    exact ⟨_, hmember, hphase, congrArg _ hnone⟩

/-- No event takes a number back. -/
lemma lastId_le_advance (hsound : a.Sound settings) (event : Event) :
    a.manager.registry.lastId ≤ (a.advance event).manager.registry.lastId := by
  have hconsistent := hsound.discerning.consistent
  rcases (a.advance_advances event).manager with hsame | ⟨choices, moment, c, hmanager⟩
  · rw [hsame]
  · rw [hmanager]
    exact (Manager.step_revision hconsistent choices moment c).lastId_le

/-- A connection that was given up does not come back: its number was given out. -/
lemma notMem_ids_advance (hsound : a.Sound settings) (hvacant : a.manager.Vacant)
    (hissued : peer.number ≤ a.manager.registry.lastId) (hgone : peer ∉ a.manager.registry.ids)
    (event : Event) : peer ∉ (a.advance event).manager.registry.ids := by
  have hconsistent := hsound.discerning.consistent
  rcases (a.advance_advances event).manager with hsame | ⟨choices, moment, c, hmanager⟩
  · rw [hsame]
    exact hgone
  · rw [hmanager, Manager.mem_ids_step hvacant hconsistent]
    rintro (⟨hlive, -⟩ | haccepted)
    · exact hgone hlive
    · exact accepted_notMem hconsistent hissued haccepted

/-- A connection that is gone does not come back under its number. -/
lemma notMem_ids_after {events : List Event}
    (hissued : peer.number ≤ (after settings events).manager.registry.lastId)
    (hgone : peer ∉ (after settings events).manager.registry.ids) (later : List Event) :
    peer ∉ (after settings (events ++ later)).manager.registry.ids := by
  have hstays : peer.number ≤ (after settings (events ++ later)).manager.registry.lastId ∧
      peer ∉ (after settings (events ++ later)).manager.registry.ids := by
    induction later using List.reverseRecOn with
    | nil =>
      rw [List.append_nil]
      exact ⟨hissued, hgone⟩
    | append_singleton later event ih =>
      have hsound := sound_after settings (events ++ later)
      have hvacant := (mirrors_after settings (events ++ later)).vacant
      rw [← List.append_assoc, after, List.foldl_append]
      exact ⟨ih.1.trans (lastId_le_advance hsound event),
        notMem_ids_advance hsound hvacant ih.1 ih.2 event⟩
  exact hstays.2

/-- However a session ends, its milestones are those of one life.  Until its stream is closed the
peer was reported as ready once or not at all, and not before a verdict let it in; when the stream
is closed it was reported to be gone once if it had been ready, and the manager was told once that
the session is over, after all else.

So whatever happens at a node, a connection that was accepted and is given up is given up on the
last notice of its session, after the session is over, and once; and it is given up when that notice
is heard. -/
theorem lifecycle_reported_once (settings : Settings) :
    (∀ ledger moment peer line events,
      let run := Line.Run.after settings ledger moment peer line events
      let effects := (Session.start settings ledger moment.unixTime).2 ++ Session.effects run.turns
      (run.line.localEnd ≠ .closed →
        Session.milestones effects = [] ∨
          ∃ v, Session.milestones effects = [.report (.peerReady v)]) ∧
      (run.line.localEnd = .closed →
        (Session.milestones effects = [.notify .disconnected] ∨
          ∃ v, Session.milestones effects =
            [.report (.peerReady v), .report .peerDisconnected, .notify .disconnected]) ∧
        effects.getLast? = some (.notify .disconnected)) ∧
      ∀ earlier t later v, run.turns = earlier ++ t :: later →
        .report (.peerReady v) ∈ t.result.2 →
        ∃ t' ∈ earlier, t'.before.phase = .awaitingVerdict ∧
          t'.input = .answer (.verdict (.ok ()))) ∧
    ∀ events,
      let a := after settings events
      (∀ peer member, a.members peer = some member →
        (peer ∉ a.manager.registry.ids ↔ member.session.phase = .over ∧ member.told = [])) ∧
      ∀ event peer, peer ∈ a.manager.registry.ids →
        peer ∉ (a.advance event).manager.registry.ids →
        (∃ member, a.members peer = some member ∧ member.session.phase = .over ∧
          member.told = [.disconnected]) ∧
        ∀ later, peer ∉ (after settings (events ++ event :: later)).manager.registry.ids := by
  refine ⟨fun ledger moment peer line events => ?_, fun events => ?_⟩
  · intro run effects
    obtain ⟨s, hhistory, -⟩ := Line.Run.sound_after settings ledger moment peer line events
    have hclosed := Line.Run.closed_iff_over settings ledger moment peer line events hhistory
    obtain ⟨hopened, hended⟩ := hhistory.milestones.spec
    refine ⟨fun hopen => hopened (mt hclosed.mpr hopen), fun hend => ⟨hended (hclosed.mp hend), ?_⟩,
      fun earlier t later v hturns hready => ?_⟩
    · rw [List.getLast?_append, hhistory.getLast?_effects (hclosed.mp hend)]
      rfl
    · rw [show (Line.Run.after settings ledger moment peer line events).turns = _ from hturns]
        at hhistory
      exact hhistory.verdict_of_peerReady hready
  · intro a
    have hsound : a.Sound settings := sound_after settings events
    have hvacant : a.manager.Vacant := (mirrors_after settings events).vacant
    have hattended : a.Attended := attended_after settings events
    refine ⟨fun peer member => hattended.notMem_ids_iff, fun event peer hlive hgone => ?_⟩
    have hover := hattended.over_of_given_up hsound hvacant hlive hgone
    refine ⟨hover, fun later => ?_⟩
    obtain ⟨member, hmember, -⟩ := hover
    have hissued := (hsound.members peer member hmember).issued
    have hadvanced : after settings (events ++ [event]) = a.advance event := List.foldl_concat ..
    rw [List.append_cons]
    rw [← hadvanced] at hgone
    refine notMem_ids_after ?_ hgone later
    rw [hadvanced]
    exact hissued.trans (lastId_le_advance hsound event)

/-- A peer that completes the handshake and then says that it shuts down is reported as ready, and
then as gone; and its connection is given up when the manager hears of that. -/
theorem lifecycle_reported_once_of_shutdown :
    ∃ (ledger : Ledger) (before : List Line.Event) (last : Line.Event) (events : List Event)
      (event : Event),
      let settings := Settings.standard (.ofMagic 0 0)
      let after :=
        Line.Run.after settings ledger ⟨0, 0⟩ ⟨1⟩ (Line.start "remote" .closed 1000 false)
      let passed := fun run : Line.Run =>
        Session.milestones ((Session.start settings ledger 0).2 ++ Session.effects run.turns)
      (after before).line.localEnd ≠ .closed ∧
      (after (before ++ [last])).line.localEnd = .closed ∧
      (∃ v, passed (after before) = [.report (.peerReady v)]) ∧
      (∃ v, passed (after (before ++ [last])) =
        [.report (.peerReady v), .report .peerDisconnected, .notify .disconnected]) ∧
      (∃ t ∈ (after before).turns, t.before.phase = .awaitingVerdict ∧
        t.input = .answer (.verdict (.ok ()))) ∧
      ⟨1⟩ ∈ (Assembly.after settings events).manager.registry.ids ∧
      ∀ later, ⟨1⟩ ∉ (Assembly.after settings (events ++ event :: later)).manager.registry.ids := by
  let settings : Settings := .standard (.ofMagic 0 0)
  let ledger : Ledger := MemoryLedger.toLedger ⟨[], none, [], [], [], [], none, 16⟩
  let version : Version := ⟨0, 0, 0, 1, "", []⟩
  let goodbye : Message := .disconnect (.plain .shutdown)
  obtain ⟨hlife, hnode⟩ := lifecycle_reported_once settings
  -- At the line
  let session : Line.Event := .session ledger ⟨0, 0⟩
  let stream : Bytes :=
    (Message.version version).encode ++ Message.verack.encode ++ goodbye.encode
  let before : List Line.Event :=
    [session, .inbound ⟨1000, ⟨stream, none⟩, false⟩] ++ List.replicate 12 .intake ++
      [session, .answer (.verdict (.ok ())), session, session, session]
  let l := Line.start "remote" .closed 1000 false
  obtain ⟨hopened, -, hverdict⟩ := hlife ledger ⟨0, 0⟩ ⟨1⟩ l before
  obtain ⟨hwhile, hend, -⟩ := hlife ledger ⟨0, 0⟩ ⟨1⟩ l (before ++ [session])
  have hconnected :
      (Line.Run.after settings ledger ⟨0, 0⟩ ⟨1⟩ l before).line.connection?.isSome = true := by
    decide +kernel
  have hone : (Session.milestones ((Session.start settings ledger 0).2 ++ Session.effects
      (Line.Run.after settings ledger ⟨0, 0⟩ ⟨1⟩ l before).turns)).length = 1 := by
    decide +kernel
  have hall : (Session.milestones ((Session.start settings ledger 0).2 ++ Session.effects
      (Line.Run.after settings ledger ⟨0, 0⟩ ⟨1⟩ l (before ++ [session])).turns)).length = 3 := by
    decide +kernel
  -- At the node
  let connect : Event := .command .first ledger ⟨0, 0⟩ (.connect default .inbound)
  let rest : List Event := handshake ledger ⟨0, 0⟩ version ++
    [.turn ledger ⟨0, 0⟩ ⟨1⟩ (.item (.message goodbye))]
  let hear : Event := .hear .first ledger ⟨0, 0⟩ ⟨1⟩
  have hafter : after settings (connect :: rest) =
      rest.foldl advance (firstMet settings ledger 0 default .inbound) := by
    rw [after, List.foldl_cons, advance_connect (by decide) (by decide)]
  have hlive : ⟨1⟩ ∈ (after settings (connect :: rest)).manager.registry.ids := by
    rw [hafter]
    decide +kernel
  have hgone : ⟨1⟩ ∉ ((after settings (connect :: rest)).advance hear).manager.registry.ids := by
    rw [hafter]
    decide +kernel
  obtain ⟨-, hfinal⟩ := (hnode (connect :: rest)).2 hear ⟨1⟩ hlive hgone
  refine ⟨ledger, before, session, connect :: rest, hear, ?_⟩
  dsimp only
  generalize Line.Run.after settings ledger ⟨0, 0⟩ ⟨1⟩ l before = run
    at hopened hverdict hconnected hone ⊢
  generalize Line.Run.after settings ledger ⟨0, 0⟩ ⟨1⟩ l (before ++ [session]) = run'
    at hwhile hend hall ⊢
  have hopen : run.line.localEnd ≠ .closed := by
    obtain ⟨c, hc⟩ := Option.isSome_iff_exists.mp hconnected
    exact Line.localEnd_ne_closed hc
  have hknown : ∃ v, Session.milestones ((Session.start settings ledger 0).2 ++
      Session.effects run.turns) = [.report (.peerReady v)] := by
    refine (hopened hopen).resolve_left fun hnone => ?_
    rw [hnone] at hone
    exact Nat.zero_ne_one hone
  have hclosed : run'.line.localEnd = .closed := by
    refine not_not.mp fun hlive => ?_
    rcases hwhile hlive with hnone | ⟨v, hknown⟩
    · rw [hnone] at hall
      exact absurd hall (by decide)
    · rw [hknown] at hall
      exact absurd hall (by simp)
  have hleft := (hend hclosed).1.resolve_left fun hlost => by
    rw [hlost] at hall
    exact absurd hall (by decide)
  refine ⟨hopen, hclosed, hknown, hleft, ?_, hlive, hfinal⟩
  obtain ⟨v, hv⟩ := hknown
  have hmilestone : .report (.peerReady v) ∈ Session.milestones
      ((Session.start settings ledger 0).2 ++ Session.effects run.turns) := by
    rw [hv]
    exact List.mem_cons_self
  rcases List.mem_append.mp (List.mem_filter.mp hmilestone).1 with hstart | hreport
  · exact SessionEffect.noConfusion (List.mem_singleton.mp hstart)
  · obtain ⟨t, ht, hready⟩ := List.mem_flatMap.mp hreport
    obtain ⟨earlier, later, hturns⟩ := List.append_of_mem ht
    obtain ⟨t', ht', hanswered⟩ := hverdict earlier t later v hturns hready
    rw [hturns]
    exact ⟨t', List.mem_append_left _ ht', hanswered⟩

end Assembly

end PeerNet
