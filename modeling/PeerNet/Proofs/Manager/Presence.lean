import PeerNet.Proofs.Manager.Filters

/-!
# Who is live

A connection is live from the command with which its stream is accepted until the manager hears that
its session is over, and no other command has a part in it (`Manager.mem_ids_step`).
-/

namespace PeerNet

namespace Manager

variable {m : Manager} {choices : Choices} {moment : Moment} {c : ManagerCommand}

/-- What the manager hears of a peer leaves everybody live, unless it hears that its session is
over. -/
lemma ids_onNotice (m : Manager) (choices : Choices) (moment : Moment) (peer : PeerId)
    {n : PeerNotice} (hn : n ≠ .disconnected) :
    (m.onNotice choices moment peer n).1.registry.ids = m.registry.ids := by
  cases n with
  | disconnected => exact absurd rfl hn
  | introduced version =>
    have hjudges := m.judges_allow peer version moment.now
    unfold onNotice
    dsimp only
    generalize m.allow peer version moment.now = judged at hjudges
    cases hjudges with
    | refused => rfl
    | accepted => exact Registry.ids_modify ..
  | remoteHeight height =>
    rw [onNotice, raiseHeight]
    split
    · rfl
    · split
      · exact Registry.ids_modify ..
      · rfl
  | ready | filterChanged => exact Registry.ids_modify ..
  | suggested | delivered | addressRequest => rfl

/-- Only two kinds of command change who is live. -/
lemma ids_handle (m : Manager) (choices : Choices) (moment : Moment)
    (hconnect : ∀ remote direction, c ≠ .connect remote direction)
    (hover : ∀ peer, c ≠ .notice peer .disconnected) :
    (m.handle choices moment c).1.registry.ids = m.registry.ids := by
  cases c with
  | connect remote direction => exact absurd rfl (hconnect remote direction)
  | notice peer n =>
    exact m.ids_onNotice choices moment peer fun hn => hover peer (by rw [hn])
  | tick =>
    rw [handle]
    split
    · obtain ⟨dialing, hdiscover⟩ := m.discover_eq choices
      rw [hdiscover]
    · rfl
  | shutdown caller =>
    rw [handle, beginShutdown]
    split <;> rfl
  | addPeers | relay | broadcast | inspect | dialFinished | rejectionFinished => rfl

/-- The live connections after a stream has asked are those before and the one that is accepted. -/
lemma mem_ids_connect (hconsistent : m.registry.Consistent) (choices : Choices)
    (remote : Endpoint) (direction : Direction) {peer : PeerId} :
    peer ∈ (m.connect choices remote direction).1.registry.ids ↔
      peer ∈ m.registry.ids ∨ .accepted peer ∈ (m.connect choices remote direction).2 := by
  have hanswers := m.answers_connect choices remote direction
  generalize m.connect choices remote direction = r at hanswers
  cases hanswers with
  | late | silent | notified =>
    refine ⟨.inl, fun h => h.resolve_right fun hmem => ?_⟩
    exact ManagerEffect.noConfusion (List.mem_singleton.mp hmem)
  | accepted _ hregistered =>
    have hregistration := hconsistent.registration remote direction m.settings.maxConnections
      m.settings.maxConnectionsPerAddress
    rw [hregistered] at hregistration
    cases hregistration with
    | admitted _ _ hpeers =>
      rw [Registry.ids, hpeers, List.map_append, List.mem_append, List.map_singleton,
        List.mem_singleton, List.mem_singleton, ManagerEffect.accepted.injEq]
      rfl

/-- Nobody is accepted but by the command to do so. -/
lemma accepted_notMem_handle (m : Manager) (choices : Choices) (moment : Moment)
    (hconnect : ∀ remote direction, c ≠ .connect remote direction) (peer : PeerId) :
    .accepted peer ∉ (m.handle choices moment c).2 := by
  by_cases hfinished : c = .rejectionFinished
  · rw [hfinished]
    exact List.not_mem_nil
  · intro hmem
    have hquiet := (m.handle_abstains choices moment hconnect hfinished).quiet _ hmem
    exact Option.noConfusion rfl (heq_of_eq hquiet.1)

/-- A connection is live after a command if it was so before and is not the one to go, or if it is
accepted now. -/
lemma mem_ids_handle (hconsistent : m.registry.Consistent) (choices : Choices) (moment : Moment)
    (c : ManagerCommand) {peer : PeerId} :
    peer ∈ (m.handle choices moment c).1.registry.ids ↔
      (peer ∈ m.registry.ids ∧ c ≠ .notice peer .disconnected) ∨
        .accepted peer ∈ (m.handle choices moment c).2 := by
  by_cases hconnect : ∃ remote direction, c = .connect remote direction
  · obtain ⟨remote, direction, rfl⟩ := hconnect
    rw [handle, mem_ids_connect hconsistent]
    exact or_congr_left (and_iff_left ManagerCommand.noConfusion).symm
  · have hother : ∀ remote direction, c ≠ .connect remote direction :=
      fun remote direction heq => hconnect ⟨remote, direction, heq⟩
    rw [or_iff_left (m.accepted_notMem_handle choices moment hother peer)]
    by_cases hover : ∃ gone, c = .notice gone .disconnected
    · obtain ⟨gone, rfl⟩ := hover
      have hhandle : (m.handle choices moment (.notice gone .disconnected)).1.registry =
          (m.registry.remove gone).1 := rfl
      rw [hhandle, Registry.mem_ids_remove]
      refine and_congr_right fun _ => not_congr ⟨fun h => by rw [h], fun h => ?_⟩
      exact (ManagerCommand.notice.inj h).1.symm
    · have hstays : ∀ gone, c ≠ .notice gone .disconnected := fun gone heq => hover ⟨gone, heq⟩
      rw [m.ids_handle choices moment hother hstays]
      exact (and_iff_left (hstays peer)).symm

/-- A connection is live after a command if it was before, and the command is not that its session
is over, or if it is accepted now. -/
lemma mem_ids_step (hvacant : m.Vacant) (hconsistent : m.registry.Consistent) (choices : Choices)
    (moment : Moment) (c : ManagerCommand) {peer : PeerId} :
    peer ∈ (m.step choices moment c).1.registry.ids ↔
      (peer ∈ m.registry.ids ∧ c ≠ .notice peer .disconnected) ∨
        .accepted peer ∈ (m.step choices moment c).2 := by
  cases hlive : m.isStopped with
  | true =>
    have hnone : m.registry.ids = [] := by
      rw [Registry.ids, hvacant hlive]
      rfl
    rw [step_of_stopped hlive, hnone]
    exact iff_of_false List.not_mem_nil
      (not_or.mpr ⟨fun h => List.not_mem_nil h.1, List.not_mem_nil⟩)
  | false =>
    have hlast : .accepted peer ∉ (m.handle choices moment c).1.stopIfDone.2 := by
      intro hmem
      have hquiet := (stopIfDone_spec _).1.quiet _ hmem
      exact Option.noConfusion rfl (heq_of_eq hquiet.1)
    rw [step_of_live hlive]
    dsimp only
    rw [(stopIfDone_eq _).1, List.mem_append, or_iff_left hlast]
    exact mem_ids_handle hconsistent choices moment c

/-- The numbers that were given out stay so. -/
lemma Revision.lastId_le {r : Manager × List ManagerEffect} (h : m.Revision c r) :
    m.registry.lastId ≤ r.1.registry.lastId := by
  cases h with
  | admitted _ hlast =>
    rw [hlast]
    exact Nat.le_succ _
  | identified _ _ _ _ hregistry =>
    rw [hregistry]
    rfl
  | routine _ hshrinks => rw [hshrinks.lastId_eq]

end Manager

end PeerNet
