import PeerNet.Manager.Step
import PeerNet.Proofs.Peer.Registry

/-!
# What a command of the manager does to the admission of connections

Of the commands of the manager one decides about a connection (`Manager.Answers`), and one tells
that a notice is over.  All others leave the matter alone (`Manager.Abstains`), although they may
take connections away or change what is kept of them; so does the manager when it stops.
-/

namespace PeerNet

/-- The number of a stream that has become a connection. -/
def ManagerEffect.admitted? : ManagerEffect → Option PeerId
  | .accepted peer => some peer
  | _ => none

/-- The notice that is to be written to a stream that was turned away. -/
def ManagerEffect.notice? : ManagerEffect → Option Disconnect
  | .rejected notice? => notice?
  | _ => none

namespace Manager

/-! ## Commands about other things -/

/-- What lets nobody in, turns nobody away, and ends no notice. -/
structure Abstains (m : Manager) (r : Manager × List ManagerEffect) : Prop where
  settings_eq : r.1.settings = m.settings
  pending_eq : r.1.pendingRejections = m.pendingRejections
  shrinks : m.registry.Shrinks r.1.registry
  running : r.1.isRunning = true → m.isRunning = true
  quiet : ∀ effect ∈ r.2, effect.admitted? = none ∧ effect.notice? = none

variable {m : Manager} {choices : Choices} {moment : Moment}

/-- Where the phase stays and connections are at most taken away, nothing is admitted. -/
lemma Abstains.of_shrinks {r : Manager × List ManagerEffect}
    (hshrinks : m.registry.Shrinks r.1.registry) (hsettings : r.1.settings = m.settings)
    (hpending : r.1.pendingRejections = m.pendingRejections) (hphase : r.1.phase = m.phase)
    (hquiet : ∀ effect ∈ r.2, effect.admitted? = none ∧ effect.notice? = none) : m.Abstains r where
  settings_eq := hsettings
  pending_eq := hpending
  shrinks := hshrinks
  running h := by rwa [isRunning, hphase] at h
  quiet := hquiet

lemma abstains_self (m : Manager) : m.Abstains (m, []) :=
  .of_shrinks (.refl _) rfl rfl rfl (List.forall_mem_nil _)

/-- Judging a peer admits no other. -/
lemma allow_abstains (m : Manager) (peer : PeerId) (version : Version) (now : Nat) :
    m.Abstains ((m.allow peer version now).1, []) := by
  rw [allow]
  split
  · exact m.abstains_self
  · split
    · exact m.abstains_self
    · split
      · exact m.abstains_self
      · split
        · exact m.abstains_self
        · have hshrinks := Registry.shrinks_modify m.registry peer
            (f := fun e => { e with version := some version }) fun _ => rfl
          exact .of_shrinks hshrinks rfl rfl rfl (List.forall_mem_nil _)

/-- Announcing something to peers admits nobody and turns nobody away. -/
lemma announce_quiet (m : Manager) (inventory : Inventory) (source : Option PeerId) :
    ∀ effect ∈ m.announce inventory source, effect.admitted? = none ∧ effect.notice? = none :=
  List.forall_mem_map.mpr fun _ _ => ⟨rfl, rfl⟩

/-- Keeping the height of a peer admits nobody. -/
lemma raiseHeight_abstains (m : Manager) (peer : PeerId) (height : UInt32) :
    m.Abstains (m.raiseHeight peer height) := by
  rw [raiseHeight]
  split
  · exact m.abstains_self
  · split_ifs
    · have hshrinks := Registry.shrinks_modify m.registry peer
        (f := fun e => { e with lastBlockIndex := height }) fun _ => rfl
      exact .of_shrinks hshrinks rfl rfl rfl (List.forall_mem_singleton.mpr ⟨rfl, rfl⟩)
    · exact m.abstains_self

/-- Whatever a session tells, nobody is admitted by it. -/
lemma onNotice_abstains (m : Manager) (choices : Choices) (moment : Moment) (peer : PeerId)
    (n : PeerNotice) : m.Abstains (m.onNotice choices moment peer n) := by
  cases n with
  | introduced version =>
    have hallow := m.allow_abstains peer version moment.now
    exact ⟨hallow.settings_eq, hallow.pending_eq, hallow.shrinks, hallow.running,
      List.forall_mem_singleton.mpr ⟨rfl, rfl⟩⟩
  | ready =>
    have hshrinks := Registry.shrinks_modify m.registry peer
      (f := fun e =>
        { e with
          ready := true
          lastBlockIndex := (e.version.map Version.startHeight).getD e.lastBlockIndex })
      fun _ => rfl
    exact .of_shrinks hshrinks rfl rfl rfl (List.forall_mem_nil _)
  | filterChanged filter =>
    have hshrinks := Registry.shrinks_modify m.registry peer
      (f := fun e => { e with filter }) fun _ => rfl
    exact .of_shrinks hshrinks rfl rfl rfl (List.forall_mem_nil _)
  | remoteHeight height => exact m.raiseHeight_abstains peer height
  | suggested records => exact .of_shrinks (.refl _) rfl rfl rfl (List.forall_mem_nil _)
  | delivered inventory =>
    exact .of_shrinks (.refl _) rfl rfl rfl
      (List.forall_mem_cons.mpr ⟨⟨rfl, rfl⟩, m.announce_quiet inventory (some peer)⟩)
  | addressRequest =>
    exact .of_shrinks (.refl _) rfl rfl rfl (List.forall_mem_singleton.mpr ⟨rfl, rfl⟩)
  | disconnected =>
    exact ⟨rfl, rfl, Registry.shrinks_remove _ _, id, List.forall_mem_nil _⟩

/-- An attempt that begins is no connection yet. -/
lemma dialSome_abstains (m : Manager) (choices : Choices) (wanted : Nat)
    (candidates : List Endpoint) : m.Abstains (m.dialSome choices wanted candidates) :=
  .of_shrinks (.refl _) rfl rfl rfl (List.forall_mem_map.mpr fun _ _ => ⟨rfl, rfl⟩)

/-- Looking for connections admits nobody. -/
lemma discover_abstains (m : Manager) (choices : Choices) :
    m.Abstains (m.discover choices) := by
  simp only [discover]
  split
  · exact m.abstains_self
  · split
    · exact m.dialSome_abstains choices _ _
    · split
      · exact .of_shrinks (.refl _) rfl rfl rfl (List.forall_mem_map.mpr fun _ _ => ⟨rfl, rfl⟩)
      · exact m.dialSome_abstains choices _ _

/-- A call to stop admits nobody. -/
lemma beginShutdown_abstains (m : Manager) (caller : Nat) :
    m.Abstains (m.beginShutdown caller) := by
  rw [beginShutdown]
  split
  · next hphase =>
    have hrunning : m.isRunning = true := by
      rw [isRunning, hphase]
      rfl
    exact ⟨rfl, rfl, .refl _, fun _ => hrunning, List.forall_mem_map.mpr fun _ _ => ⟨rfl, rfl⟩⟩
  · exact ⟨rfl, rfl, .refl _, fun h => Bool.noConfusion h, List.forall_mem_nil _⟩
  · exact m.abstains_self

/-- Whoever wants the node to stop has it take no more connections. -/
lemma isRunning_beginShutdown (m : Manager) (caller : Nat) :
    (m.beginShutdown caller).1.isRunning = false := by
  rw [beginShutdown]
  split
  · rfl
  · rfl
  · next hphase =>
    rw [isRunning, hphase]
    rfl

/-- All commands but two abstain. -/
lemma handle_abstains (m : Manager) (choices : Choices) (moment : Moment) {c : ManagerCommand}
    (hconnect : ∀ remote direction, c ≠ .connect remote direction)
    (hfinished : c ≠ .rejectionFinished) : m.Abstains (m.handle choices moment c) := by
  cases c with
  | connect remote direction => exact absurd rfl (hconnect remote direction)
  | rejectionFinished => exact absurd rfl hfinished
  | notice peer n => exact m.onNotice_abstains choices moment peer n
  | addPeers endpoints => exact .of_shrinks (.refl _) rfl rfl rfl (List.forall_mem_nil _)
  | relay inventory => exact .of_shrinks (.refl _) rfl rfl rfl (m.announce_quiet inventory none)
  | broadcast message =>
    exact .of_shrinks (.refl _) rfl rfl rfl (List.forall_mem_map.mpr fun _ _ => ⟨rfl, rfl⟩)
  | inspect => exact m.abstains_self
  | tick =>
    rw [handle]
    split_ifs
    · exact m.discover_abstains choices
    · exact m.abstains_self
  | dialFinished endpoint => exact .of_shrinks (.refl _) rfl rfl rfl (List.forall_mem_nil _)
  | shutdown caller => exact m.beginShutdown_abstains caller

/-! ## The request for a connection -/

/-- A notice gives the reason for which it was made. -/
lemma reason_of_rejectionNotice {reason : DisconnectReason} {records : List AddressRecord}
    {d : Disconnect} (h : rejectionNotice reason records = some d) : d.reason = reason := by
  rw [rejectionNotice, Disconnect.create] at h
  split_ifs at h <;> simp_all [Except.toOption]
  rw [← h]

/-- What becomes of a stream that asks to become a connection. -/
inductive Answers (m : Manager) (remote : Endpoint) (direction : Direction) :
    Manager × List ManagerEffect → Prop
  | late (hlate : m.isRunning = false) : Answers m remote direction (m, [.rejected none])
  | accepted {registry : Registry} {peer : PeerId} (hrunning : m.isRunning = true)
    (hregistered : m.registry.register remote direction m.settings.maxConnections
      m.settings.maxConnectionsPerAddress = .ok (registry, peer)) :
    Answers m remote direction ({ m with registry }, [.accepted peer])
  | silent {reason : DisconnectReason} (hrunning : m.isRunning = true)
    (hrefused : m.registry.register remote direction m.settings.maxConnections
      m.settings.maxConnectionsPerAddress = .error reason) :
    Answers m remote direction (m, [.rejected none])
  | notified {d : Disconnect} (hrunning : m.isRunning = true)
    (hrefused : m.registry.register remote direction m.settings.maxConnections
      m.settings.maxConnectionsPerAddress = .error d.reason)
    (hpending : m.pendingRejections < m.settings.maxPendingRejections) :
    Answers m remote direction
      ({ m with pendingRejections := m.pendingRejections + 1 }, [.rejected (some d)])

variable {remote : Endpoint} {direction : Direction}

/-- Where a stream is registered, it is accepted under its number. -/
lemma connect_of_ok {registry : Registry} {peer : PeerId} (hrunning : m.isRunning = true)
    (hregistered : m.registry.register remote direction m.settings.maxConnections
      m.settings.maxConnectionsPerAddress = .ok (registry, peer)) :
    m.connect choices remote direction = ({ m with registry }, [.accepted peer]) := by
  rw [connect, hrunning, hregistered]
  rfl

/-- Where a stream is not registered, it is turned away with the reason. -/
lemma connect_of_error {reason : DisconnectReason} (hrunning : m.isRunning = true)
    (hrefused : m.registry.register remote direction m.settings.maxConnections
      m.settings.maxConnectionsPerAddress = .error reason) :
    m.connect choices remote direction = m.reject choices reason := by
  rw [connect, hrunning, hrefused]
  rfl

/-- A stream that asks to become a connection is accepted, or turned away with a notice or
without. -/
lemma answers_connect (m : Manager) (choices : Choices) (remote : Endpoint)
    (direction : Direction) : m.Answers remote direction (m.connect choices remote direction) := by
  cases hrunning : m.isRunning with
  | false =>
    rw [connect, hrunning]
    exact .late hrunning
  | true =>
    rcases hverdict : m.registry.register remote direction m.settings.maxConnections
      m.settings.maxConnectionsPerAddress with reason | ⟨registry, peer⟩
    · rw [connect_of_error hrunning hverdict, reject]
      split
      · exact .silent hrunning hverdict
      · next hpending =>
        split
        · exact .silent hrunning hverdict
        · next d hnotice =>
          rw [← reason_of_rejectionNotice hnotice] at hverdict
          exact .notified hrunning hverdict (Nat.lt_of_not_le hpending)
    · rw [connect_of_ok hrunning hverdict]
      exact .accepted hrunning hverdict

/-! ## A step -/

/-- A manager that knows of one notice less. -/
def noticeOver (m : Manager) : Manager := { m with pendingRejections := m.pendingRejections - 1 }

/-- Stopping admits nobody. -/
lemma stopIfDone_spec (m : Manager) :
    m.Abstains m.stopIfDone ∧ m.stopIfDone.1.registry = m.registry := by
  rw [stopIfDone]
  split
  · split_ifs
    · exact ⟨⟨rfl, rfl, .refl _, fun h => Bool.noConfusion h,
        List.forall_mem_singleton.mpr ⟨rfl, rfl⟩⟩, rfl⟩
    · exact ⟨m.abstains_self, rfl⟩
  · exact ⟨.of_shrinks (.refl _) rfl rfl rfl (List.forall_mem_nil _), rfl⟩
  · exact ⟨m.abstains_self, rfl⟩

/-- A manager that has not stopped handles the command, and then stops if it is done. -/
lemma step_of_live (hlive : m.isStopped = false) (choices : Choices) (moment : Moment)
    (c : ManagerCommand) :
    m.step choices moment c =
      ((m.handle choices moment c).1.stopIfDone.1,
        (m.handle choices moment c).2 ++ (m.handle choices moment c).1.stopIfDone.2) := by
  rw [step, hlive]
  rfl

/-- A manager that has stopped takes nothing up. -/
lemma step_of_stopped (hstopped : m.isStopped = true) (choices : Choices) (moment : Moment)
    (c : ManagerCommand) : m.step choices moment c = (m, []) := by
  rw [step, if_pos hstopped]

/-- A manager that runs has not stopped. -/
lemma isStopped_of_isRunning (hrunning : m.isRunning = true) : m.isStopped = false := by
  rw [isStopped, eq_of_beq hrunning]
  rfl

/-- A manager that runs is not done. -/
lemma stopIfDone_of_isRunning (hrunning : m.isRunning = true) : m.stopIfDone = (m, []) := by
  rw [stopIfDone, eq_of_beq hrunning]

/-- A manager that runs goes on running when a stream asks to become a connection. -/
lemma step_connect_of_isRunning (hrunning : m.isRunning = true) (choices : Choices)
    (moment : Moment) (remote : Endpoint) (direction : Direction) :
    m.step choices moment (.connect remote direction) = m.connect choices remote direction := by
  have hstill : (m.connect choices remote direction).1.isRunning = true := by
    have hanswers := m.answers_connect choices remote direction
    generalize m.connect choices remote direction = r at hanswers
    cases hanswers <;> exact hrunning
  rw [step_of_live (isStopped_of_isRunning hrunning)]
  change ((m.connect choices remote direction).1.stopIfDone.1, _ ++ _) = _
  rw [handle, stopIfDone_of_isRunning hstill, List.append_nil]

/-- A manager that is to stop, or has stopped, takes no connection. -/
lemma step_connect_of_not_isRunning (hlate : m.isRunning = false) (choices : Choices)
    (moment : Moment) (remote : Endpoint) (direction : Direction) :
    (m.step choices moment (.connect remote direction)).1.registry = m.registry ∧
      ∀ peer, .accepted peer ∉ (m.step choices moment (.connect remote direction)).2 := by
  cases hlive : m.isStopped with
  | true =>
    rw [step_of_stopped hlive]
    exact ⟨rfl, fun peer => List.not_mem_nil⟩
  | false =>
    have hconnect : m.handle choices moment (.connect remote direction) =
        (m, [.rejected none]) := by
      rw [handle, connect, hlate]
      rfl
    rw [step_of_live hlive, hconnect]
    refine ⟨(stopIfDone_spec m).2, fun peer hpeer => ?_⟩
    rcases List.mem_append.mp hpeer with hpeer | hpeer
    · exact ManagerEffect.noConfusion (List.mem_singleton.mp hpeer)
    · exact Option.noConfusion rfl (heq_of_eq ((stopIfDone_spec m).1.quiet _ hpeer).1)

/-- A manager that runs and has room accepts a connection. -/
lemma step_connect_of_room (hrunning : m.isRunning = true) (hconsistent : m.registry.Consistent)
    (hroom : m.registry.size < m.settings.maxConnections)
    (hshare : m.registry.countFrom remote.ip.normal < m.settings.maxConnectionsPerAddress)
    (choices : Choices) (moment : Moment) (direction : Direction) :
    m.step choices moment (.connect remote direction) =
      ({ m with registry := m.registry.joinedBy remote direction },
        [.accepted ⟨m.registry.lastId + 1⟩]) := by
  have hcount : m.registry.connectionsFrom remote.ip.normal =
      m.registry.countFrom remote.ip.normal := by
    rw [hconsistent.connectionsFrom_eq, Ip.normal_normal]
  rw [step_connect_of_isRunning hrunning]
  refine connect_of_ok hrunning ?_
  rw [Registry.register, hcount, if_neg (Nat.not_le.mpr hroom), if_neg (Nat.not_le.mpr hshare)]
  rfl

end Manager

end PeerNet
