import PeerNet.Proofs.Manager.Step

/-!
# Admission of connections

`Manager.Run` is a manager with the commands it took, the numbers it gave out and the notices that
are being written.  In every run that can come about (`Run.Reachable`) the caps hold, the counts of
the registry are exact, no number was given out twice, and the manager knows how many notices are
under way.
-/

namespace PeerNet

namespace Manager

/-- A manager with its past. -/
structure Run where
  manager : Manager
  /-- The commands it took. -/
  commands : List ManagerCommand
  /-- The numbers it gave to connections, in order. -/
  admitted : List PeerId
  /-- The notices that are being written to streams it turned away. -/
  notices : List Disconnect

namespace Run

/-- A manager that took no command. -/
def start (settings : Settings) : Run := ⟨Manager.start settings, [], [], []⟩

/-- A run after one more command. -/
def take (run : Run) (choices : Choices) (moment : Moment) (c : ManagerCommand) : Run :=
  let (manager, effects) := run.manager.step choices moment c
  ⟨manager, run.commands ++ [c], run.admitted ++ effects.filterMap ManagerEffect.admitted?,
    run.notices ++ effects.filterMap ManagerEffect.notice?⟩

/-- A run after a notice was written, or given up. -/
def finish (run : Run) (choices : Choices) (moment : Moment) (d : Disconnect) : Run :=
  { run.take choices moment .rejectionFinished with notices := run.notices.erase d }

/-- The runs that can come about: that a notice is over is told of notices under way, and to a
manager that has not stopped. -/
inductive Reachable (settings : Settings) : Run → Prop
  | start : Reachable settings (start settings)
  | take {run : Run} (h : Reachable settings run) (choices : Choices) (moment : Moment)
    {c : ManagerCommand} (hc : c ≠ .rejectionFinished) :
    Reachable settings (run.take choices moment c)
  | finish {run : Run} (h : Reachable settings run) (choices : Choices) (moment : Moment)
    {d : Disconnect} (hd : d ∈ run.notices) (hlive : run.manager.isStopped = false) :
    Reachable settings (run.finish choices moment d)

/-- What holds of a manager and its past. -/
structure Sound (settings : Settings) (run : Run) : Prop where
  settings_eq : run.manager.settings = settings
  consistent : run.manager.registry.Consistent
  size_le : run.manager.registry.size ≤ settings.maxConnections
  countFrom_le : ∀ ip, run.manager.registry.countFrom ip ≤ settings.maxConnectionsPerAddress
  ids_sublist : run.manager.registry.ids.Sublist run.admitted
  ordered : run.admitted.Pairwise (·.number < ·.number)
  bounded : ∀ id ∈ run.admitted, id.number ≤ run.manager.registry.lastId
  pending_eq : run.manager.pendingRejections = run.notices.length
  pending_le : run.notices.length ≤ settings.maxPendingRejections
  closed : ∀ caller, .shutdown caller ∈ run.commands → run.manager.isRunning = false

variable {settings : Settings} {run : Run}

/-- A manager that starts has admitted nobody and turned nobody away. -/
lemma sound_start (settings : Settings) : (start settings).Sound settings where
  settings_eq := rfl
  consistent := Registry.consistent_empty
  size_le := Nat.zero_le _
  countFrom_le _ := Nat.zero_le _
  ids_sublist := .slnil
  ordered := .nil
  bounded := List.forall_mem_nil _
  pending_eq := rfl
  pending_le := Nat.zero_le _
  closed _ h := absurd h List.not_mem_nil

/-- The record is carried on by what comes of a command. -/
def extend (run : Run) (commands : List ManagerCommand) (r : Manager × List ManagerEffect) : Run :=
  ⟨r.1, run.commands ++ commands, run.admitted ++ r.2.filterMap ManagerEffect.admitted?,
    run.notices ++ r.2.filterMap ManagerEffect.notice?⟩

/-- A command that abstains keeps what holds, if it ends the run of the manager where it has to. -/
lemma Sound.extend_of_abstains (h : run.Sound settings) {commands : List ManagerCommand}
    {r : Manager × List ManagerEffect} (hr : run.manager.Abstains r)
    (hclosed : ∀ caller, .shutdown caller ∈ commands → r.1.isRunning = false) :
    (run.extend commands r).Sound settings := by
  have hadmitted : r.2.filterMap ManagerEffect.admitted? = [] :=
    List.filterMap_eq_nil_iff.mpr fun effect heffect => (hr.quiet effect heffect).1
  have hnotices : r.2.filterMap ManagerEffect.notice? = [] :=
    List.filterMap_eq_nil_iff.mpr fun effect heffect => (hr.quiet effect heffect).2
  rw [extend, hadmitted, hnotices, List.append_nil, List.append_nil]
  refine ⟨hr.settings_eq.trans h.settings_eq, hr.shrinks.consistent h.consistent,
    hr.shrinks.size_le.trans h.size_le, fun ip => (hr.shrinks.countFrom_le ip).trans
      (h.countFrom_le ip), hr.shrinks.ids_sublist.trans h.ids_sublist, h.ordered, fun id hid => ?_,
    hr.pending_eq.trans h.pending_eq, h.pending_le, fun caller hcaller => ?_⟩
  · rw [hr.shrinks.lastId_eq]
    exact h.bounded id hid
  · rcases List.mem_append.mp hcaller with hcaller | hcaller
    · exact Bool.eq_false_iff.mpr fun hrunning =>
        absurd (hr.running hrunning) (Bool.eq_false_iff.mp (h.closed caller hcaller))
    · exact hclosed caller hcaller

/-- A stream that becomes a connection finds room, and gets a number of its own. -/
lemma Sound.extend_of_accepted (h : run.Sound settings) {remote : Endpoint}
    {direction : Direction} {registry : Registry} {peer : PeerId}
    (hclosed : ∀ caller, .shutdown caller ∈ run.commands ++ [.connect remote direction] →
      run.manager.isRunning = false)
    (hregistered : run.manager.registry.register remote direction settings.maxConnections
      settings.maxConnectionsPerAddress = .ok (registry, peer)) :
    (run.extend [.connect remote direction]
      ({ run.manager with registry }, [.accepted peer])).Sound settings := by
  have hregistration := h.consistent.registration remote direction settings.maxConnections
    settings.maxConnectionsPerAddress
  rw [hregistered] at hregistration
  cases hregistration with
  | admitted hroom hshare hpeers hlast hconsistent =>
    have hids : registry.ids =
        run.manager.registry.ids ++ [⟨run.manager.registry.lastId + 1⟩] := by
      rw [Registry.ids, hpeers, List.map_append]
      rfl
    have hnotices : (run.extend [.connect remote direction] ({ run.manager with registry },
        [.accepted ⟨run.manager.registry.lastId + 1⟩])).notices = run.notices :=
      List.append_nil _
    refine ⟨h.settings_eq, hconsistent, ?_, fun ip => ?_, ?_, ?_, fun id hid => ?_, ?_, ?_, hclosed⟩
    · change registry.peers.length ≤ _
      rw [hpeers, List.length_append]
      exact hroom
    · change registry.peers.countP _ ≤ _
      rw [hpeers, List.countP_append, List.countP_singleton]
      split_ifs with hip
      · rw [← eq_of_beq hip]
        exact hshare
      · exact h.countFrom_le ip
    · change registry.ids.Sublist _
      rw [hids]
      exact h.ids_sublist.append_right _
    · refine List.pairwise_append.mpr ⟨h.ordered, List.pairwise_singleton _ _, ?_⟩
      intro id hid new hnew
      rw [List.mem_singleton.mp hnew]
      exact Nat.lt_succ_of_le (h.bounded id hid)
    · change id.number ≤ registry.lastId
      rw [hlast]
      rcases List.mem_append.mp hid with hid | hid
      · exact Nat.le_succ_of_le (h.bounded id hid)
      · rw [List.mem_singleton.mp hid]
    · rw [hnotices]
      exact h.pending_eq
    · rw [hnotices]
      exact h.pending_le

/-- A stream gets a notice only while there is room for one more. -/
lemma Sound.extend_of_notified (h : run.Sound settings) {remote : Endpoint}
    {direction : Direction} {d : Disconnect}
    (hclosed : ∀ caller, .shutdown caller ∈ run.commands ++ [.connect remote direction] →
      run.manager.isRunning = false)
    (hpending : run.manager.pendingRejections < settings.maxPendingRejections) :
    (run.extend [.connect remote direction]
      ({ run.manager with pendingRejections := run.manager.pendingRejections + 1 },
        [.rejected (some d)])).Sound settings := by
  have hadmitted : (run.extend [.connect remote direction]
      ({ run.manager with pendingRejections := run.manager.pendingRejections + 1 },
        [.rejected (some d)])).admitted = run.admitted := List.append_nil _
  have hnotices : (run.extend [.connect remote direction]
      ({ run.manager with pendingRejections := run.manager.pendingRejections + 1 },
        [.rejected (some d)])).notices.length = run.notices.length + 1 := List.length_append
  refine ⟨h.settings_eq, h.consistent, h.size_le, h.countFrom_le, ?_, ?_, ?_, ?_, ?_, hclosed⟩
  · rw [hadmitted]
    exact h.ids_sublist
  · rw [hadmitted]
    exact h.ordered
  · rw [hadmitted]
    exact h.bounded
  · rw [hnotices]
    exact congrArg (· + 1) h.pending_eq
  · rw [hnotices, ← h.pending_eq]
    exact hpending

/-- However a stream that asks to become a connection is answered, the past is kept in step. -/
lemma Sound.extend_of_answers (h : run.Sound settings) {remote : Endpoint} {direction : Direction}
    {r : Manager × List ManagerEffect} (hr : run.manager.Answers remote direction r) :
    (run.extend [.connect remote direction] r).Sound settings := by
  have hnot : ∀ caller, ManagerCommand.shutdown caller ∉ [.connect remote direction] :=
    fun caller hcaller => ManagerCommand.noConfusion (List.mem_singleton.mp hcaller)
  have hclosed : ∀ caller, .shutdown caller ∈ run.commands ++ [.connect remote direction] →
      run.manager.isRunning = false := fun caller hcaller =>
    (List.mem_append.mp hcaller).elim (h.closed caller) fun hlast => absurd hlast (hnot caller)
  have hsilent : run.manager.Abstains (run.manager, [.rejected none]) :=
    .of_shrinks (.refl _) rfl rfl rfl (List.forall_mem_singleton.mpr ⟨rfl, rfl⟩)
  cases hr with
  | late => exact h.extend_of_abstains hsilent fun caller hcaller => absurd hcaller (hnot caller)
  | silent => exact h.extend_of_abstains hsilent fun caller hcaller => absurd hcaller (hnot caller)
  | accepted _ hregistered =>
    rw [h.settings_eq] at hregistered
    exact h.extend_of_accepted hclosed hregistered
  | notified _ _ hpending =>
    rw [h.settings_eq] at hpending
    exact h.extend_of_notified hclosed hpending

/-- Whatever else a manager handles keeps it in step with its past. -/
lemma Sound.extend_of_handle (h : run.Sound settings) (choices : Choices) (moment : Moment)
    {c : ManagerCommand} (hc : c ≠ .rejectionFinished) :
    (run.extend [c] (run.manager.handle choices moment c)).Sound settings := by
  by_cases hconnect : ∃ remote direction, c = .connect remote direction
  · obtain ⟨remote, direction, rfl⟩ := hconnect
    exact h.extend_of_answers (answers_connect run.manager choices remote direction)
  · refine h.extend_of_abstains (handle_abstains run.manager choices moment
      (fun remote direction heq => hconnect ⟨remote, direction, heq⟩) hc) fun caller hcaller => ?_
    rw [← List.mem_singleton.mp hcaller]
    exact isRunning_beginShutdown run.manager caller

/-- Every command but the end of a notice keeps a manager in step with its past. -/
lemma Sound.take (h : run.Sound settings) (choices : Choices) (moment : Moment)
    {c : ManagerCommand} (hc : c ≠ .rejectionFinished) :
    (run.take choices moment c).Sound settings := by
  cases hlive : run.manager.isStopped with
  | true =>
    have htake : run.take choices moment c = run.extend [c] (run.manager, []) := by
      rw [Run.take, step_of_stopped hlive]
      rfl
    rw [htake]
    refine h.extend_of_abstains run.manager.abstains_self
      fun caller _ => Bool.eq_false_iff.mpr fun hrunning => ?_
    rw [isStopped_of_isRunning hrunning] at hlive
    exact Bool.noConfusion hlive
  | false =>
    have htake : run.take choices moment c =
        (run.extend [c] (run.manager.handle choices moment c)).extend []
          (run.manager.handle choices moment c).1.stopIfDone := by
      rw [Run.take, step_of_live hlive]
      simp [extend, List.filterMap_append]
    rw [htake]
    exact (h.extend_of_handle choices moment hc).extend_of_abstains (stopIfDone_spec _).1
      fun caller hcaller => absurd hcaller List.not_mem_nil

/-- The end of a notice makes room for another one, and may be what the manager waits for to
stop. -/
lemma finish_eq_extend (choices : Choices) (moment : Moment) (d : Disconnect)
    (hlive : run.manager.isStopped = false) :
    run.finish choices moment d =
      Run.extend ⟨run.manager.noticeOver, run.commands, run.admitted, run.notices.erase d⟩
        [.rejectionFinished] run.manager.noticeOver.stopIfDone := by
  have hquiet : run.manager.noticeOver.stopIfDone.2.filterMap ManagerEffect.notice? = [] :=
    List.filterMap_eq_nil_iff.mpr fun effect heffect =>
      ((stopIfDone_spec _).1.quiet effect heffect).2
  rw [Run.finish, Run.take, step_of_live hlive, extend, hquiet, List.append_nil]
  rfl

/-- That a notice is over makes room for another. -/
lemma Sound.finish (h : run.Sound settings) (choices : Choices) (moment : Moment) {d : Disconnect}
    (hd : d ∈ run.notices) (hlive : run.manager.isStopped = false) :
    (run.finish choices moment d).Sound settings := by
  have hlength : (run.notices.erase d).length = run.notices.length - 1 :=
    List.length_erase_of_mem hd
  have htold : Sound settings
      ⟨run.manager.noticeOver, run.commands, run.admitted, run.notices.erase d⟩ := by
    refine ⟨h.settings_eq, h.consistent, h.size_le, h.countFrom_le, h.ids_sublist, h.ordered,
      h.bounded, ?_, ?_, h.closed⟩
    · rw [hlength]
      exact congrArg (· - 1) h.pending_eq
    · rw [hlength]
      exact (Nat.sub_le _ _).trans h.pending_le
  rw [finish_eq_extend choices moment d hlive]
  exact htold.extend_of_abstains (stopIfDone_spec _).1 fun caller hcaller =>
    ManagerCommand.noConfusion (List.mem_singleton.mp hcaller)

/-- What holds of a manager and its past holds in every run that can come about. -/
lemma Reachable.sound (h : Reachable settings run) : run.Sound settings := by
  induction h with
  | start => exact sound_start settings
  | take _ choices moment hc ih => exact ih.take choices moment hc
  | finish _ choices moment hd hlive ih => exact ih.finish choices moment hd hlive

/-- In every run that can come about the caps hold, over all and for each address; the addresses
with an entry are those with a live connection, and the entry is their number, so that it is never
zero when a connection goes; no number is given to two connections; and the notices under way are
counted and no more than may be.  A stream is refused for one cap if that is met, and for the other
if that is met and the first is not; a refusal leaves the connections as they are.  Once the node is
to stop, no stream becomes a connection. -/
theorem admission (settings : Settings) {run : Run} (h : Reachable settings run) :
    let registry := run.manager.registry
    let verdict (remote : Endpoint) (direction : Direction) :=
      registry.register remote direction settings.maxConnections settings.maxConnectionsPerAddress
    registry.size ≤ settings.maxConnections ∧
    (∀ ip, registry.countFrom ip ≤ settings.maxConnectionsPerAddress) ∧
    (∀ ip, registry.perAddress[ip]? =
      if registry.countFrom ip = 0 then none else some (registry.countFrom ip)) ∧
    (∀ id entry, registry.get? id = some entry →
      0 < registry.connectionsFrom entry.remote.ip) ∧
    registry.ids.Sublist run.admitted ∧ run.admitted.Nodup ∧
    run.manager.pendingRejections = run.notices.length ∧
    run.notices.length ≤ settings.maxPendingRejections ∧
    (∀ remote direction,
      (verdict remote direction = .error .maxConnectionReached ↔
        settings.maxConnections ≤ registry.size) ∧
      (verdict remote direction = .error .maxConnectionPerAddressReached ↔
        registry.size < settings.maxConnections ∧
          settings.maxConnectionsPerAddress ≤ registry.countFrom remote.ip.normal)) ∧
    (∀ choices moment remote direction, run.manager.isRunning = true →
      let next := run.manager.step choices moment (.connect remote direction)
      match verdict remote direction with
      | .ok (_, peer) => next.2 = [.accepted peer] ∧ peer ∉ run.admitted
      | .error reason => next.1.registry = registry ∧
        ∃ notice? : Option Disconnect, next.2 = [.rejected notice?] ∧
          ∀ d ∈ notice?, d.reason = reason) ∧
    (∀ caller choices moment remote direction, .shutdown caller ∈ run.commands →
      let next := run.manager.step choices moment (.connect remote direction)
      next.1.registry = registry ∧ ∀ peer, .accepted peer ∉ next.2) := by
  intro registry verdict
  have hsound := h.sound
  have hregistration (remote : Endpoint) (direction : Direction) :=
    hsound.consistent.registration remote direction settings.maxConnections
      settings.maxConnectionsPerAddress
  refine ⟨hsound.size_le, hsound.countFrom_le, hsound.consistent.counted, fun id entry hlive => ?_,
    hsound.ids_sublist, hsound.ordered.imp fun hlt heq => ?_, hsound.pending_eq, hsound.pending_le,
    fun remote direction => ?_, fun choices moment remote direction hrunning => ?_,
    fun caller choices moment remote direction hcaller => ?_⟩
  · rw [hsound.consistent.connectionsFrom_eq]
    exact Registry.countFrom_pos_of_get? hlive
  · exact absurd (congrArg PeerId.number heq) (Nat.ne_of_lt hlt)
  · have hverdict : registry.Registration remote direction settings.maxConnections
        settings.maxConnectionsPerAddress (verdict remote direction) :=
      hregistration remote direction
    generalize verdict remote direction = outcome at hverdict ⊢
    cases hverdict with
    | full hfull => simp [hfull]
    | crowded hroom hcrowded => simp [hroom, hcrowded]
    | admitted hroom hshare => simp [hroom, hshare]
  · have hanswers := answers_connect run.manager choices remote direction
    have hsettings := hsound.settings_eq
    rw [step_connect_of_isRunning hrunning choices moment remote direction]
    generalize run.manager.connect choices remote direction = next at hanswers ⊢
    cases hanswers with
    | late hlate => exact Bool.noConfusion (hlate.symm.trans hrunning)
    | @accepted registered peer _ hregistered =>
      rw [hsettings] at hregistered
      have hverdict : verdict remote direction = .ok (registered, peer) := hregistered
      rw [hverdict]
      refine ⟨rfl, fun hpeer => ?_⟩
      have hregistration := hregistration remote direction
      rw [hregistered] at hregistration
      cases hregistration with
      | admitted => exact absurd (hsound.bounded _ hpeer) (Nat.not_succ_le_self _)
    | @silent reason _ hrefused =>
      rw [hsettings] at hrefused
      have hverdict : verdict remote direction = .error reason := hrefused
      rw [hverdict]
      exact ⟨rfl, none, rfl, fun d hd => absurd hd (Option.not_mem_none d)⟩
    | @notified d _ hrefused =>
      rw [hsettings] at hrefused
      have hverdict : verdict remote direction = .error d.reason := hrefused
      rw [hverdict]
      exact ⟨rfl, some d, rfl, fun d' hd' => congrArg _ (Option.mem_some_iff.mp hd').symm⟩
  · exact step_connect_of_not_isRunning (hsound.closed caller hcaller) choices moment remote
      direction

/-- Two spellings of one address share its only place. -/
theorem admission_of_two_spellings :
    ∃ run : Run,
      Reachable { Settings.standard (.ofMagic 0 0) with maxConnectionsPerAddress := 1 } run ∧
      run.admitted = [⟨1⟩] ∧
      run.notices.map Disconnect.reason = [.maxConnectionPerAddressReached] ∧
      run.manager.pendingRejections = run.notices.length ∧
      run.manager.registry.countFrom default ≤ 1 := by
  let settings : Settings :=
    { Settings.standard (.ofMagic 0 0) with maxConnectionsPerAddress := 1 }
  let plain : Endpoint := ⟨default, 1⟩
  let mapped : Endpoint := ⟨.v6 (Ip.wireOctets default), 2⟩
  let registry : Registry :=
    ⟨[(⟨1⟩, .ofRemote plain .inbound)], (∅ : Std.HashMap Ip Nat).insert default 1, 1⟩
  have hplain : (default : Ip).normal = default := by decide +kernel
  have hmapped : (Ip.v6 (Ip.wireOctets default)).normal = default := by decide +kernel
  have hfirst : Registry.empty.register plain .inbound 40 1 = .ok (registry, ⟨1⟩) := by
    simp [Registry.register, Registry.empty, Registry.size, Registry.connectionsFrom, plain,
      registry, hplain]
  have hsecond : registry.register mapped .inbound 40 1 =
      .error .maxConnectionPerAddressReached := by
    simp [Registry.register, Registry.size, Registry.connectionsFrom, mapped, registry, hplain,
      hmapped]
  let run := ((start settings).take .first ⟨0, 0⟩ (.connect plain .inbound)).take .first ⟨0, 0⟩
    (.connect mapped .inbound)
  have hreachable : Reachable settings run :=
    .take (.take .start .first ⟨0, 0⟩ (by simp)) .first ⟨0, 0⟩ (by simp)
  have hrun : run = Run.extend ⟨{ Manager.start settings with registry },
      [.connect plain .inbound], [⟨1⟩], []⟩ [.connect mapped .inbound]
      (({ Manager.start settings with registry } : Manager).reject .first
        .maxConnectionPerAddressReached) := by
    have hone : (start settings).take .first ⟨0, 0⟩ (.connect plain .inbound) =
        ⟨{ Manager.start settings with registry }, [.connect plain .inbound], [⟨1⟩], []⟩ := by
      rw [Run.take, step_connect_of_isRunning rfl, connect_of_ok rfl hfirst]
      rfl
    change Run.take _ _ _ _ = _
    rw [hone, Run.take, step_connect_of_isRunning rfl, connect_of_error rfl hsecond]
    rfl
  have hnotices : run.notices.map Disconnect.reason = [.maxConnectionPerAddressReached] := by
    rw [hrun]
    decide +kernel
  have hadmitted : run.admitted = [⟨1⟩] := by
    rw [hrun]
    decide +kernel
  obtain ⟨-, hshare, -, -, -, -, hpending, -⟩ := admission settings hreachable
  exact ⟨run, hreachable, hadmitted, hnotices, hpending, hshare default⟩

end Run

end Manager

end PeerNet
