import PeerNet.Proofs.Handler.Filter
import PeerNet.Proofs.Manager.Filters
import PeerNet.Proofs.Node.Course

/-!
# The filter at both ends

A filter is kept twice, by the handler that serves the peer and by the manager that announces
objects to it.  The manager hears of a change later than it is made, and the order of the notices is
all that it has to go by.  The two are tied by what is on the way: the filter of the handler is the
one that was told last among the notices not heard yet, and the one that the manager keeps if there
is none (`Assembly.Mirrors`).  So a manager that has heard all announces transactions as the
handler's filter has it.
-/

namespace PeerNet

/-! ## What a session tells of its filter -/

lemma PeerNotice.filterMap_filter?_eq_nil {notices : List PeerNotice}
    (hsilent : ∀ f, .filterChanged f ∉ notices) : notices.filterMap PeerNotice.filter? = [] := by
  refine List.filterMap_eq_nil_iff.mpr fun n hn => ?_
  cases n with
  | filterChanged f => exact absurd hn (hsilent f)
  | introduced | ready | remoteHeight | suggested | delivered | addressRequest | disconnected => rfl

namespace Session

variable {s : Session} {ledger : Ledger} {moment : Moment} {input : SessionInput}

/-- No change of the filter is left to be told. -/
def HasToldFilter (s : Session) : Prop := ∀ f, .filterChanged f ∉ s.agenda

/-- The filters that are told of, in order. -/
def toldFilters (effects : List SessionEffect) : List (Option BloomFilter) :=
  (effects.filterMap SessionEffect.notice?).filterMap PeerNotice.filter?

/-- All that happens to a filter is told at once. -/
structure TellsFilter (before : Option BloomFilter) (r : Session × List SessionEffect) : Prop where
  settled : r.1.HasToldFilter
  last : (toldFilters r.2).getLastD before = r.1.handler.filter

lemma toldFilters_eq_nil {effects : List SessionEffect}
    (hsilent : ∀ f, .notify (.filterChanged f) ∉ effects) : toldFilters effects = [] :=
  PeerNotice.filterMap_filter?_eq_nil fun f hf => hsilent f (Assembly.mem_notices.mp hf)

/-- A filter that stays needs no word. -/
lemma TellsFilter.of_silent {r : Session × List SessionEffect} {before : Option BloomFilter}
    (hsettled : r.1.HasToldFilter) (hfilter : r.1.handler.filter = before)
    (hsilent : ∀ f, .notify (.filterChanged f) ∉ r.2) : TellsFilter before r where
  settled := hsettled
  last := by
    rw [toldFilters_eq_nil hsilent, hfilter]
    rfl

/-- Events that are not about the filter are carried out without a word of it. -/
lemma tellsFilter_carryOut {events : List HandlerEvent} (s : Session)
    (hsilent : ∀ f, .filterChanged f ∉ events) :
    TellsFilter s.handler.filter (s.carryOut events) := by
  have hcarries := carriesOut_carryOut events s
  obtain ⟨state, hhandler⟩ := hcarries.handler_eq
  refine .of_silent (fun f hf => hsilent f (hcarries.agenda hf)) ?_
    fun f hf => hsilent f (hcarries.filterChanged f hf)
  rw [hhandler]

/-- A session that ends has no change of its filter left to tell. -/
lemma tellsFilter_finish (s : Session) : TellsFilter s.handler.filter s.finish :=
  .of_silent (fun _ => List.not_mem_nil) rfl s.filterChanged_notMem_finish

/-- What a session reports is nothing that the manager hears. -/
lemma TellsFilter.after_reports {before : Option BloomFilter} {r : Session × List SessionEffect}
    (h : TellsFilter before r) (reports : List TaskReport) :
    TellsFilter before (r.1, reports.map SessionEffect.report ++ r.2) := by
  refine ⟨h.settled, ?_⟩
  have hreports : toldFilters (reports.map SessionEffect.report) = [] := by
    refine toldFilters_eq_nil fun f hf => ?_
    obtain ⟨report, -, heq⟩ := List.mem_map.mp hf
    exact SessionEffect.noConfusion heq
  have happend : toldFilters (reports.map SessionEffect.report ++ r.2) =
      toldFilters (reports.map SessionEffect.report) ++ toldFilters r.2 := by
    rw [toldFilters, List.filterMap_append, List.filterMap_append]
    rfl
  rw [happend, hreports]
  exact h.last

/-- A write is not a notice. -/
lemma tellsFilter_write (h : s.HasToldFilter) (handler : Handler) (phase : SessionPhase)
    (m : Message) : TellsFilter handler.filter ({ s with handler, phase }, [.write m]) :=
  .of_silent h rfl fun _ hf => SessionEffect.noConfusion (List.mem_singleton.mp hf)

/-- A session that has told its filter tells each change in the turn that makes it. -/
lemma step_tellsFilter (h : s.HasToldFilter) (ledger : Ledger) (moment : Moment)
    (input : SessionInput) : TellsFilter s.handler.filter (s.step ledger moment input) := by
  have hcourse := s.step_course ledger moment input
  generalize s.step ledger moment input = r at hcourse
  cases hcourse with
  | silent => exact .of_silent h rfl fun _ => List.not_mem_nil
  | resumed => exact tellsFilter_carryOut s h
  | @handled i reaction hdone =>
    -- A change is the only event of its item, so it is told at once and never left on the agenda.
    have hcall : s.handler.call (.handle ledger moment i) =
        (reaction.handler, ⟨reaction.events, reaction.reports, none, none⟩) := by
      rw [Handler.call, hdone]
      rfl
    have hrefilters := s.handler.refilters_call (.handle ledger moment i)
    rw [hcall] at hrefilters
    refine TellsFilter.after_reports ?_ reaction.reports
    cases hrefilters with
    | kept hfilter _ hsilent =>
      rw [← hfilter]
      exact tellsFilter_carryOut { s with handler := reaction.handler } hsilent
    | changed _ hevents =>
      dsimp only at hevents
      rw [hevents]
      exact ⟨fun _ => List.not_mem_nil, rfl⟩
  | @violated i handler v hviolation =>
    have hcall : s.handler.call (.handle ledger moment i) = (handler, ⟨[], [], none, some v⟩) := by
      rw [Handler.call, hviolation]
      rfl
    have hlast := (s.handler.refilters_call (.handle ledger moment i)).last
    rw [hcall] at hlast
    rw [show s.handler.filter = handler.filter from hlast]
    exact tellsFilter_finish { s with handler }
  | acknowledged => exact tellsFilter_write h s.handler .writing .verack
  | suggested => exact tellsFilter_write h s.handler .writing _
  | told m => exact tellsFilter_write h s.handler .writing m
  | announced kind hash known =>
    exact tellsFilter_write h { s.handler with known } .writing _
  | parted =>
    exact .of_silent (fun _ => List.not_mem_nil) rfl
      fun _ hf => SessionEffect.noConfusion (List.mem_singleton.mp hf)
  | ended => exact s.tellsFilter_finish

end Session

/-! ## What the manager keeps -/

/-- The filter that the manager is going to keep once it has heard all that a session told. -/
def Member.lastFilter (member : Member) (kept : Option BloomFilter) : Option BloomFilter :=
  (member.told.filterMap PeerNotice.filter?).getLastD kept

/-- The oldest notice is the next that the manager makes something of. -/
lemma Member.lastFilter_cons (session : Session) (n : PeerNotice) (told : List PeerNotice)
    (answer : Option ManagerAnswer) (peer : PeerId) (kept : Option BloomFilter) :
    Member.lastFilter ⟨session, n :: told, answer⟩ kept =
      Member.lastFilter ⟨session, told, answer⟩
        ((ManagerCommand.notice peer n).refilter peer kept) := by
  have hrefilter : (ManagerCommand.notice peer n).refilter peer kept = n.filter?.getD kept :=
    if_pos rfl
  rw [hrefilter, lastFilter, lastFilter, List.filterMap_cons]
  cases n.filter? with
  | none => rfl
  | some f => exact List.getLastD_cons

namespace Assembly

variable {settings : Settings} {a : Assembly} {peer : PeerId} {member : Member}

/-- The filters of the sessions are those of the manager as it is going to keep them. -/
structure Mirrors (a : Assembly) : Prop where
  vacant : a.manager.Vacant
  settled : ∀ peer member, a.members peer = some member → member.session.HasToldFilter
  mirrored : ∀ p ∈ a.manager.registry.peers, ∀ member, a.members p.1 = some member →
    member.lastFilter p.2.filter = member.session.handler.filter

/-- Where there are no sessions, nothing is to be mirrored. -/
lemma mirrors_start (settings : Settings) : (start settings).Mirrors where
  vacant h := Bool.noConfusion h
  settled _ _ h := Option.noConfusion rfl (heq_of_eq h)
  mirrored := List.forall_mem_nil _

/-- A command is what the filters that are kept become by it. -/
lemma Mirrors.command (hsound : a.Sound settings) (hvacant : a.manager.Vacant)
    (hsettled : ∀ peer member, a.members peer = some member → member.session.HasToldFilter)
    (choices : Choices) (ledger : Ledger) (moment : Moment) {c : ManagerCommand}
    (hmirrored : ∀ p ∈ a.manager.registry.peers, ∀ member, a.members p.1 = some member →
      member.lastFilter (c.refilter p.1 p.2.filter) = member.session.handler.filter) :
    (a.command choices ledger moment c).Mirrors := by
  have hconsistent := hsound.discerning.consistent
  have hrefilters := Manager.step_refilters hvacant hconsistent choices moment c
  refine ⟨?_, fun peer member' hmember' => ?_, fun p hp member' hmember' => ?_⟩
  · rw [manager_command]
    exact hvacant.step choices moment c
  · cases a.continues_command choices ledger moment c hmember' with
    | same hmember hsession =>
      rw [hsession]
      exact hsettled peer _ hmember
    | new _ _ _ _ hsession =>
      rw [hsession]
      exact fun _ => List.not_mem_nil
  · rw [manager_command] at hp
    cases a.continues_command choices ledger moment c hmember' with
    | @same member hmember hsession htold =>
      rcases hrefilters p hp with ⟨hfresh, -⟩ | ⟨e, he, hfilter⟩
      -- A number that is given out now had no session before.
      · exact absurd (hsound.members p.1 member hmember).issued (Nat.not_le.mpr hfresh)
      · rw [hfilter, hsession, Member.lastFilter, htold]
        exact hmirrored (p.1, e) he member hmember
    | new _ _ _ haccepted hsession htold =>
      have hnumber := number_of_accepted hconsistent haccepted
      rcases hrefilters p hp with ⟨-, hnone⟩ | ⟨e, he, -⟩
      · rw [Member.lastFilter, htold, hsession, hnone]
        rfl
      · have hbounded := hconsistent.bounded p.1 (List.mem_map.mpr ⟨_, he, rfl⟩)
        rw [hnumber] at hbounded
        exact absurd hbounded (Nat.not_succ_le_self _)

/-- A session's turn changes the filter as it tells. -/
lemma Mirrors.turn (h : a.Mirrors) {before : Member} (hmember : a.members peer = some before)
    (member : Member) (hsession : member.session = before.session)
    (htold : member.told = before.told) (ledger : Ledger) (moment : Moment) (input : SessionInput) :
    (a.turn ledger moment peer member input).Mirrors := by
  have hsettled : member.session.HasToldFilter := by
    rw [hsession]
    exact h.settled peer before hmember
  have htells := Session.step_tellsFilter hsettled ledger moment input
  refine ⟨h.vacant, fun other m hm => ?_, fun p hp m hm => ?_⟩
  · obtain ⟨-, rfl⟩ | ⟨-, hm⟩ := members_turn hm
    · exact htells.settled
    · exact h.settled other m hm
  · obtain ⟨rfl, rfl⟩ | ⟨-, hm⟩ := members_turn hm
    · have hbefore : member.lastFilter p.2.filter = member.session.handler.filter := by
        rw [Member.lastFilter, htold, hsession]
        exact h.mirrored p hp before hmember
      rw [Member.lastFilter, Member.proceed, List.filterMap_append, getLastD_append]
      exact (congrArg _ hbefore).trans htells.last
    · exact h.mirrored p hp m hm

/-- A notice that is heard is no longer to be heard. -/
lemma Mirrors.advance (h : a.Mirrors) (hsound : a.Sound settings) (event : Event) :
    (a.advance event).Mirrors := by
  have hadvances := a.advance_advances event
  generalize a.advance event = a' at hadvances
  cases hadvances with
  | unchanged => exact h
  | @commanded choices ledger moment c hown =>
    refine Mirrors.command hsound h.vacant h.settled choices ledger moment fun p hp member hm => ?_
    have hkept : c.refilter p.1 p.2.filter = p.2.filter := by
      cases c with
      | notice peer n => exact absurd rfl (hown peer n)
      | _ => rfl
    rw [hkept]
    exact h.mirrored p hp member hm
  | @heard choices ledger moment peer session n told answer hmember =>
    refine Mirrors.command (hsound.hear hmember) h.vacant (fun other m hm => ?_) choices ledger
      moment fun p hp m hm => ?_
    all_goals dsimp only at hm
    · by_cases hpeer : other = peer
      · subst hpeer
        rw [Function.update_self, Option.some.injEq] at hm
        subst hm
        have hsettled := h.settled other _ hmember
        exact hsettled
      · exact h.settled other m ((Function.update_of_ne hpeer _ a.members).symm.trans hm)
    · by_cases hpeer : p.1 = peer
      · subst hpeer
        rw [Function.update_self, Option.some.injEq] at hm
        subst hm
        have hbefore := h.mirrored p hp _ hmember
        rwa [Member.lastFilter_cons] at hbefore
      · have hkept : (ManagerCommand.notice peer n).refilter p.1 p.2.filter = p.2.filter :=
          if_neg (Ne.symm hpeer)
        rw [hkept]
        exact h.mirrored p hp m ((Function.update_of_ne hpeer _ a.members).symm.trans hm)
  | turned ledger moment hmember => exact h.turn hmember _ rfl rfl ledger moment _
  | settled ledger moment hmember => exact h.turn hmember ⟨_, _, none⟩ rfl rfl ledger moment _

/-- After all events the manager has the filters of the sessions, or is about to. -/
lemma mirrors_after (settings : Settings) (events : List Event) : (after settings events).Mirrors :=
  (List.foldlRecOn events Assembly.advance
    (motive := fun a => a.Sound settings ∧ a.Mirrors) ⟨sound_start settings, mirrors_start settings⟩
    fun _ h event _ => ⟨h.1.advance event, h.2.advance h.1 event⟩).2

/-- Whatever is called on a new handler, its filter is the one that was told last, and there is none
as long as nothing was told.  However the sessions and the manager take their turns, the filter of a
session is the one that the manager is going to keep for the connection.  So once the manager has
heard every change, the two are the same, and an object goes out once to a connection that is ready
and that it did not come from if it passes the filter of the handler there, and not at all if it
does not. -/
theorem filter_mirrored (settings : Settings) (events : List Event) :
    (∀ ledger pendingTimeout calls,
      let run := Handler.Run.after ledger pendingTimeout calls
      run.handler.filter = (run.events.filterMap HandlerEvent.filter?).getLastD none) ∧
    let a := after settings events
    ∀ p ∈ a.manager.registry.peers, ∃ member, a.members p.1 = some member ∧
      member.session.handler.filter = member.lastFilter p.2.filter ∧
      ((∀ f, .filterChanged f ∉ member.told) →
        p.2.filter = member.session.handler.filter ∧
        (p.2.ready = true → ∀ choices moment c inventory source,
          c.announced? = some (inventory, source) →
          (a.manager.step choices moment c).2.filterMap (ManagerEffect.commandTo? p.1) =
            if some p.1 ≠ source ∧ inventory.passes member.session.handler.filter = true then
              [.relay inventory.kind inventory.hash] else [])) := by
  refine ⟨Handler.Run.filter_told_last, ?_⟩
  intro a p hp
  have hsound : a.Sound settings := sound_after settings events
  have hmirrors : a.Mirrors := mirrors_after settings events
  obtain ⟨member, hmember⟩ := hsound.present p hp
  have hlast := hmirrors.mirrored p hp member hmember
  refine ⟨member, hmember, hlast.symm, fun hheard => ?_⟩
  have hsame : p.2.filter = member.session.handler.filter := by
    have hnone : member.told.filterMap PeerNotice.filter? = [] :=
      PeerNotice.filterMap_filter?_eq_nil hheard
    rw [← hlast, Member.lastFilter, hnone]
    rfl
  refine ⟨hsame, fun hready choices moment c inventory source hc => ?_⟩
  rw [← hsame]
  exact Manager.commandsTo_step hmirrors.vacant hsound.discerning.consistent
    (List.mem_filter.mpr ⟨hp, hready⟩) choices moment hc

/-- A filter that accepts nothing, loaded by a peer that is ready, holds back transactions once the
manager has heard of it, and blocks still go out. -/
theorem filter_mirrored_after_filterLoad :
    ∃ (events : List Event) (e : PeerEntry) (member : Member) (filter : BloomFilter)
      (tx : Transaction) (b : Block),
      let a := after (.standard (.ofMagic 7 1)) events
      (⟨1⟩, e) ∈ a.manager.registry.peers ∧ e.ready = true ∧ a.members ⟨1⟩ = some member ∧
      member.told = [] ∧ member.session.handler.filter = some filter ∧ e.filter = some filter ∧
      (a.manager.step .first ⟨0, 0⟩ (.relay (.transaction tx))).2.filterMap
        (ManagerEffect.commandTo? ⟨1⟩) = [] ∧
      (a.manager.step .first ⟨0, 0⟩ (.relay (.block b))).2.filterMap
        (ManagerEffect.commandTo? ⟨1⟩) = [.relay .block b.hash] := by
  let settings : Settings := .standard (.ofMagic 7 1)
  let ledger : Ledger := MemoryLedger.toLedger ⟨[], none, [], [], [], [], none, 16⟩
  let now : Moment := ⟨0, 0⟩
  let version : Version := Identity.version (.ofMagic 7 2) 0 0
  let load : FilterLoad := ⟨[], 0, 0⟩
  let connect : Event := .command .first ledger now (.connect default .inbound)
  let rest : List Event := handshake ledger now version ++
    [.turn ledger now ⟨1⟩ (.item (.message (.filterLoad load))), .hear .first ledger now ⟨1⟩]
  let e : PeerEntry :=
    { PeerEntry.ofRemote default .inbound with
      version := some version, ready := true, filter := some (.ofLoad load) }
  have hafter : after settings (connect :: rest) =
      rest.foldl advance (firstMet settings ledger 0 default .inbound) := by
    rw [after, List.foldl_cons, advance_connect (by decide) (by decide)]
  have hlive : (⟨1⟩, e) ∈ (after settings (connect :: rest)).manager.registry.peers := by
    rw [hafter]
    exact List.mem_singleton.mpr rfl
  obtain ⟨-, hmirrored⟩ := filter_mirrored settings (connect :: rest)
  obtain ⟨member, hmember, -, hheard⟩ := hmirrored (⟨1⟩, e) hlive
  have htold : member.told = [] := by
    have hall : ((after settings (connect :: rest)).members ⟨1⟩).map Member.told = some [] := by
      rw [hafter]
      rfl
    rw [hmember] at hall
    exact Option.some.inj hall
  obtain ⟨hsame, hannounced⟩ := hheard fun f hf => by
    rw [htold] at hf
    exact List.not_mem_nil hf
  let tx : Transaction := ⟨[]⟩
  let b : Block := MemoryLedger.plainBlock default 0 0
  refine ⟨connect :: rest, e, member, .ofLoad load, tx, b, hlive, rfl, hmember, htold, hsame.symm,
    rfl, ?_, ?_⟩
  · rw [hannounced rfl .first now (.relay (.transaction tx)) (.transaction tx) none rfl]
    rw [← hsame]
    exact if_neg fun h => Bool.noConfusion h.2
  · rw [hannounced rfl .first now (.relay (.block b)) (.block b) none rfl]
    exact if_pos ⟨Option.some_ne_none _, rfl⟩

end Assembly

end PeerNet
