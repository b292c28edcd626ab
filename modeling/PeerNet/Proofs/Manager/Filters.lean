import PeerNet.Proofs.Manager.Identity

/-!
# Filters, and whom an object is announced to

The manager keeps a filter for each connection.  A new connection has none, and it changes with one
notice of the session and with nothing else (`Registry.Refilters`).  An object is announced once to
each connection that is ready, other than the one that it came from, unless it is a transaction that
the filter kept for that connection does not accept (`Manager.commandsTo_announce`).  A manager that
has stopped hears no notices, but then it has no connections either (`Manager.Vacant`).
-/

namespace PeerNet

/-- What a notice says of the filter, if it says anything of it. -/
def PeerNotice.filter? : PeerNotice → Option (Option BloomFilter)
  | .filterChanged f => some f
  | .introduced _ | .ready | .remoteHeight _ | .suggested _ | .delivered _ | .addressRequest
  | .disconnected => none

/-- What a command makes of the filter kept for a connection. -/
def ManagerCommand.refilter (c : ManagerCommand) (peer : PeerId) (filter : Option BloomFilter) :
    Option BloomFilter :=
  match c with
  | .notice id n => if id = peer then n.filter?.getD filter else filter
  | _ => filter

/-- What an effect tells a session to do, if it tells it anything. -/
def ManagerEffect.commandTo? (peer : PeerId) : ManagerEffect → Option SessionCommand
  | .command p c => if p = peer then some c else none
  | .accepted _ | .rejected _ | .answer _ _ | .dial _ | .report _ _ | .stopped _ => none

/-- The object that a command has the manager announce, and the connection that it came from. -/
def ManagerCommand.announced? : ManagerCommand → Option (Inventory × Option PeerId)
  | .relay inventory => some (inventory, none)
  | .notice source (.delivered inventory) => some (inventory, some source)
  | _ => none

/-- Whether an object passes a filter: only transactions are held back. -/
def Inventory.passes (filter : Option BloomFilter) : Inventory → Bool
  | .transaction tx => filter.all fun f => f.check tx.hash.toList
  | .block _ | .consensus _ => true

namespace Registry

/-- The connections of a registry after a command: those of the registry before, each with its
filter as the command has it, and new ones that have none. -/
def Refilters (r : Registry) (refilter : PeerId → Option BloomFilter → Option BloomFilter)
    (r' : Registry) : Prop :=
  ∀ p ∈ r'.peers, (r.lastId < p.1.number ∧ p.2.filter = none) ∨
    ∃ e, (p.1, e) ∈ r.peers ∧ p.2.filter = refilter p.1 e.filter

variable {r r' : Registry} {refilter : PeerId → Option BloomFilter → Option BloomFilter}

/-- A command without a word about filters may leave all connections as they are. -/
lemma Refilters.refl (h : ∀ peer filter, refilter peer filter = filter) : r.Refilters refilter r :=
  fun p hp => .inr ⟨p.2, hp, (h _ _).symm⟩

/-- Changing one connection changes the filters as wanted if it does so for this one. -/
lemma refilters_modify {id : PeerId} {f : PeerEntry → PeerEntry}
    (hself : ∀ e, (f e).filter = refilter id e.filter)
    (hother : ∀ peer filter, peer ≠ id → refilter peer filter = filter) :
    r.Refilters refilter (r.modify id f) := by
  intro p hp
  obtain ⟨e, hmem, heq⟩ := mem_modify.mp hp
  refine .inr ⟨e, hmem, ?_⟩
  rw [heq]
  split_ifs with hid
  · rw [hid]
    exact hself e
  · exact (hother _ _ hid).symm

/-- Taking a connection away leaves the filters of the others. -/
lemma refilters_remove (id : PeerId) (h : ∀ peer filter, refilter peer filter = filter) :
    r.Refilters refilter (r.remove id).1 :=
  fun p hp => .inr ⟨p.2, mem_of_mem_remove hp, (h _ _).symm⟩

/-- Where the numbers are distinct, one connection has a given one. -/
lemma Consistent.filter_fst_eq (h : r.Consistent) {p : PeerId × PeerEntry} (hp : p ∈ r.peers) :
    r.peers.filter (·.1 = p.1) = [p] := by
  have hself : p ∈ r.peers.filter (·.1 = p.1) := List.mem_filter.mpr ⟨hp, decide_eq_true rfl⟩
  have hsame : ∀ q ∈ r.peers.filter (·.1 = p.1), q = p := by
    intro q hq
    obtain ⟨hmem, hid⟩ := List.mem_filter.mp hq
    have hid : q.1 = p.1 := of_decide_eq_true hid
    have hmem : (p.1, q.2) ∈ r.peers := by rwa [← hid]
    exact Prod.ext hid (h.eq_of_mem hmem hp)
  have hnodup : (r.peers.filter (·.1 = p.1)).Nodup := (List.Nodup.of_map _ h.nodup_ids).filter _
  rw [List.eq_replicate_of_mem hsame, List.nodup_replicate] at hnodup
  have hlength : (r.peers.filter (·.1 = p.1)).length = 1 :=
    le_antisymm hnodup (List.length_pos_of_mem hself)
  rw [List.eq_replicate_of_mem hsame, hlength]
  rfl

end Registry

namespace Manager

variable {m : Manager} {choices : Choices} {moment : Moment} {c : ManagerCommand}

/-! ## The filters that are kept -/

/-- A notice that tells of no filter leaves all filters alone. -/
lemma refilter_of_filter?_eq_none {id : PeerId} {n : PeerNotice} (hn : n.filter? = none)
    (peer : PeerId) (filter : Option BloomFilter) :
    (ManagerCommand.notice id n).refilter peer filter = filter := by
  change (if id = peer then n.filter?.getD filter else filter) = filter
  rw [hn]
  exact ite_self _

/-- A change to one connection that is not about its filter. -/
lemma refilters_of_notice {id : PeerId} {n : PeerNotice} {f : PeerEntry → PeerEntry}
    (hf : ∀ e, (f e).filter = (n.filter?).getD e.filter) :
    m.registry.Refilters (ManagerCommand.notice id n).refilter (m.registry.modify id f) := by
  refine Registry.refilters_modify (fun e => (hf e).trans (if_pos rfl).symm) ?_
  exact fun peer filter hne => if_neg hne.symm

/-- A notice changes the filter that it tells of, and no other. -/
lemma onNotice_refilters (m : Manager) (choices : Choices) (moment : Moment) (peer : PeerId)
    (n : PeerNotice) :
    m.registry.Refilters (ManagerCommand.notice peer n).refilter
      (m.onNotice choices moment peer n).1.registry := by
  cases n with
  | introduced version =>
    have hjudges := m.judges_allow peer version moment.now
    unfold onNotice
    dsimp only
    generalize m.allow peer version moment.now = judged at hjudges
    cases hjudges with
    | refused => exact .refl (refilter_of_filter?_eq_none rfl)
    | accepted => exact refilters_of_notice fun _ => rfl
  | ready => exact refilters_of_notice fun _ => rfl
  | filterChanged filter => exact refilters_of_notice fun _ => rfl
  | remoteHeight height =>
    rw [onNotice, raiseHeight]
    split
    · exact .refl (refilter_of_filter?_eq_none rfl)
    · split
      · exact refilters_of_notice fun _ => rfl
      · exact .refl (refilter_of_filter?_eq_none rfl)
  | suggested records => exact .refl (refilter_of_filter?_eq_none rfl)
  | delivered inventory => exact .refl (refilter_of_filter?_eq_none rfl)
  | addressRequest => exact .refl (refilter_of_filter?_eq_none rfl)
  | disconnected => exact Registry.refilters_remove peer (refilter_of_filter?_eq_none rfl)

/-- A stream that becomes a connection has no filter, and the other filters stay. -/
lemma connect_refilters (hconsistent : m.registry.Consistent) (choices : Choices)
    (remote : Endpoint) (direction : Direction) :
    m.registry.Refilters (ManagerCommand.connect remote direction).refilter
      (m.connect choices remote direction).1.registry := by
  have hanswers := m.answers_connect choices remote direction
  generalize m.connect choices remote direction = r at hanswers
  cases hanswers with
  | late | silent | notified => exact .refl fun _ _ => rfl
  | accepted _ hregistered =>
    have hregistration := hconsistent.registration remote direction m.settings.maxConnections
      m.settings.maxConnectionsPerAddress
    rw [hregistered] at hregistration
    cases hregistration with
    | admitted _ _ hpeers =>
      intro p hp
      have hp : p ∈ m.registry.peers ++ [(⟨m.registry.lastId + 1⟩, .ofRemote remote direction)] :=
        hpeers ▸ hp
      rcases List.mem_append.mp hp with hold | hnew
      · exact .inr ⟨p.2, hold, rfl⟩
      · rw [List.mem_singleton.mp hnew]
        exact .inl ⟨Nat.lt_succ_self _, rfl⟩

/-- Looking for more connections changes nothing but which attempts are under way. -/
lemma discover_eq (m : Manager) (choices : Choices) :
    ∃ dialing, (m.discover choices).1 = { m with dialing } := by
  unfold discover
  dsimp only
  split
  · exact ⟨m.dialing, rfl⟩
  · split
    · exact ⟨_, rfl⟩
    · split
      · exact ⟨m.dialing, rfl⟩
      · exact ⟨_, rfl⟩

/-- Every command changes the filters as it should: as its notice tells, or not at all. -/
lemma handle_refilters (hconsistent : m.registry.Consistent) (choices : Choices) (moment : Moment)
    (c : ManagerCommand) :
    m.registry.Refilters c.refilter (m.handle choices moment c).1.registry := by
  cases c with
  | connect remote direction => exact connect_refilters hconsistent choices remote direction
  | notice peer n => exact m.onNotice_refilters choices moment peer n
  | tick =>
    rw [handle]
    split
    · obtain ⟨dialing, hdiscover⟩ := m.discover_eq choices
      rw [hdiscover]
      exact .refl fun _ _ => rfl
    · exact .refl fun _ _ => rfl
  | shutdown caller =>
    rw [handle, beginShutdown]
    split <;> exact .refl fun _ _ => rfl
  | addPeers | relay | broadcast | inspect | dialFinished | rejectionFinished =>
    exact .refl fun _ _ => rfl

/-! ## A manager without connections -/

/-- A manager that has stopped has no connections. -/
def Vacant (m : Manager) : Prop := m.isStopped = true → m.registry.peers = []

/-- A notice does not decide whether the node runs. -/
lemma phase_onNotice (m : Manager) (choices : Choices) (moment : Moment) (peer : PeerId)
    (n : PeerNotice) : (m.onNotice choices moment peer n).1.phase = m.phase := by
  cases n with
  | introduced version =>
    have hjudges := m.judges_allow peer version moment.now
    unfold onNotice
    dsimp only
    generalize m.allow peer version moment.now = judged at hjudges
    cases hjudges <;> rfl
  | remoteHeight height =>
    rw [onNotice, raiseHeight]
    split
    · rfl
    · split <;> rfl
  | ready | filterChanged | suggested | delivered | addressRequest | disconnected => rfl

/-- No command has a manager stop at once. -/
lemma isStopped_handle (hlive : m.isStopped = false) (choices : Choices) (moment : Moment)
    (c : ManagerCommand) : (m.handle choices moment c).1.isStopped = false := by
  cases c with
  | connect remote direction =>
    have hanswers := m.answers_connect choices remote direction
    rw [handle]
    generalize m.connect choices remote direction = r at hanswers
    cases hanswers <;> exact hlive
  | notice peer n => rwa [handle, isStopped, phase_onNotice]
  | tick =>
    rw [handle]
    split
    · obtain ⟨dialing, hdiscover⟩ := m.discover_eq choices
      rw [hdiscover]
      exact hlive
    · exact hlive
  | shutdown caller =>
    rw [handle, beginShutdown]
    split
    · rfl
    · rfl
    · exact hlive
  | addPeers | relay | broadcast | inspect | dialFinished | rejectionFinished => exact hlive

/-- No command leaves connections to a manager that has stopped. -/
lemma Vacant.step (h : m.Vacant) (choices : Choices) (moment : Moment) (c : ManagerCommand) :
    (m.step choices moment c).1.Vacant := by
  cases hlive : m.isStopped with
  | true =>
    rw [step_of_stopped hlive]
    exact h
  | false =>
    have hhandled := isStopped_handle hlive choices moment c
    rw [step_of_live hlive]
    generalize m.handle choices moment c = r at hhandled
    unfold Vacant stopIfDone
    split
    · split_ifs with hsize
      · exact fun _ => List.length_eq_zero_iff.mp hsize
      · exact fun hstopped => Bool.noConfusion (hhandled.symm.trans hstopped)
    · exact fun hstopped => Bool.noConfusion (hhandled.symm.trans hstopped)
    · exact fun hstopped => Bool.noConfusion (hhandled.symm.trans hstopped)

/-- What a step makes of the filters is what the command makes of them. -/
lemma step_refilters (hvacant : m.Vacant) (hconsistent : m.registry.Consistent) (choices : Choices)
    (moment : Moment) (c : ManagerCommand) :
    m.registry.Refilters c.refilter (m.step choices moment c).1.registry := by
  cases hlive : m.isStopped with
  | true =>
    rw [step_of_stopped hlive]
    intro p hp
    rw [hvacant hlive] at hp
    exact absurd hp List.not_mem_nil
  | false =>
    rw [step_of_live hlive]
    have hhandled := handle_refilters hconsistent choices moment c
    dsimp only
    rwa [(stopIfDone_eq _).1]

/-! ## Whom an object is announced to -/

/-- A peer wants an object just if it passes the filter that the manager keeps for it. -/
lemma wants_eq_passes (e : PeerEntry) (inventory : Inventory) :
    wants e inventory = inventory.passes e.filter := by
  cases inventory with
  | transaction tx => cases hfilter : e.filter <;> simp [wants, Inventory.passes, hfilter,
      BloomFilter.accepts]
  | block | consensus => rfl

/-- What a session is told of an object: that it is there, or nothing. -/
lemma commandsTo_announce (hconsistent : m.registry.Consistent) {p : PeerId × PeerEntry}
    (hp : p ∈ m.registry.ready) (inventory : Inventory) (source : Option PeerId) :
    (m.announce inventory source).filterMap (ManagerEffect.commandTo? p.1) =
      if some p.1 ≠ source ∧ inventory.passes p.2.filter = true then
        [.relay inventory.kind inventory.hash] else [] := by
  obtain ⟨hlive, hready⟩ := List.mem_filter.mp hp
  let goes (q : PeerId × PeerEntry) : Bool := some q.1 != source && wants q.2 inventory
  -- Numbers are distinct, so among the targets this connection is found once or not at all.
  have hself : (m.registry.ready.filter goes).filter (·.1 = p.1) = [p].filter goes := by
    have halone : m.registry.ready.filter (·.1 = p.1) = [p] := by
      rw [Registry.ready, List.filter_comm, hconsistent.filter_fst_eq hlive]
      exact List.filter_cons_of_pos hready
    rw [List.filter_comm, halone]
  have hgoes : goes p = true ↔ some p.1 ≠ source ∧ inventory.passes p.2.filter = true := by
    rw [Bool.and_eq_true, bne_iff_ne, wants_eq_passes]
  let told : SessionCommand := .relay inventory.kind inventory.hash
  have hcommands : ∀ targets : List (PeerId × PeerEntry),
      (targets.map fun q => ManagerEffect.command q.1 told).filterMap
          (ManagerEffect.commandTo? p.1) =
        (targets.filter (·.1 = p.1)).map fun _ => told := by
    intro targets
    rw [List.filterMap_map, ← List.filterMap_eq_map, List.filterMap_filter]
    refine List.filterMap_congr fun q _ => ?_
    by_cases hq : q.1 = p.1 <;> simp [ManagerEffect.commandTo?, hq]
  refine (hcommands (m.registry.ready.filter goes)).trans ?_
  rw [hself]
  split_ifs with hpasses
  · rw [List.filter_cons_of_pos (hgoes.mpr hpasses)]
    rfl
  · rw [List.filter_cons_of_neg fun h => hpasses (hgoes.mp h)]
    rfl

/-- Whatever else a step does on an object, it announces it. -/
lemma commandsTo_step (hvacant : m.Vacant) (hconsistent : m.registry.Consistent)
    {p : PeerId × PeerEntry} (hp : p ∈ m.registry.ready) (choices : Choices) (moment : Moment)
    {inventory : Inventory} {source : Option PeerId}
    (hc : c.announced? = some (inventory, source)) :
    (m.step choices moment c).2.filterMap (ManagerEffect.commandTo? p.1) =
      if some p.1 ≠ source ∧ inventory.passes p.2.filter = true then
        [.relay inventory.kind inventory.hash] else [] := by
  have hlive : m.isStopped = false := by
    refine Bool.eq_false_iff.mpr fun hstopped => ?_
    have hnone := (List.mem_filter.mp hp).1
    rw [hvacant hstopped] at hnone
    exact List.not_mem_nil hnone
  have hlast : ∀ m : Manager, m.stopIfDone.2.filterMap (ManagerEffect.commandTo? p.1) = [] := by
    intro m
    refine List.filterMap_eq_nil_iff.mpr fun effect heffect => ?_
    obtain ⟨callers, rfl⟩ := (stopIfDone_eq m).2.2 effect heffect
    rfl
  have hhandled : (m.handle choices moment c).2.filterMap (ManagerEffect.commandTo? p.1) =
      (m.announce inventory source).filterMap (ManagerEffect.commandTo? p.1) := by
    unfold ManagerCommand.announced? at hc
    split at hc
    · obtain ⟨rfl, rfl⟩ := Prod.mk.inj (Option.some.inj hc)
      rfl
    · obtain ⟨rfl, rfl⟩ := Prod.mk.inj (Option.some.inj hc)
      rfl
    · exact Option.noConfusion rfl (heq_of_eq hc)
  rw [step_of_live hlive]
  dsimp only
  rw [List.filterMap_append, hlast, List.append_nil, hhandled,
    commandsTo_announce hconsistent hp inventory source]

end Manager

end PeerNet
