import PeerNet.Proofs.Manager.Discovery

/-!
# Connection attempts

The manager keeps the endpoints at which connection attempts are under way, each of them once;
`Manager.Attempts` has beside it the attempts themselves, each of which is over once.  The two agree
(`Manager.Attempts.Sound.agree`) as long as no two attempts begin at one endpoint.  The endpoints of
the address book are distinct, and the manager passes over those at which it knows an attempt to be
under way.  So the two can come apart in one place only: the seeds are tried as they are listed, and
a seed that is listed twice may be drawn twice.  The first attempt that is over at such a seed then
frees the place of both, and there is no bound to how often that happens
(`Manager.Attempts.exists_count_ge`).
-/

namespace PeerNet

/-! ## Draws -/

/-- A draw of endpoints that is free in nothing but what it should be: it takes as many as it may of
those that there are, each of them no more often than it is there. -/
structure Choices.Picks (choices : Choices) : Prop where
  drawEndpoints_subperm : ∀ count endpoints,
    (choices.drawEndpoints count endpoints).Subperm endpoints
  length_drawEndpoints : ∀ count endpoints,
    (choices.drawEndpoints count endpoints).length = min count endpoints.length

namespace Choices

variable {choices : Choices} {endpoint : Endpoint} {endpoints : List Endpoint} {count : Nat}

/-- What comes first in some order of the endpoints is a draw. -/
lemma picks_of_perm {reorder : List Endpoint → List Endpoint}
    (hperm : ∀ endpoints, (reorder endpoints).Perm endpoints)
    (hdraw : ∀ count endpoints,
      choices.drawEndpoints count endpoints = (reorder endpoints).take count) : choices.Picks where
  drawEndpoints_subperm count endpoints := by
    rw [hdraw]
    exact (List.take_sublist _ _).subperm.trans (hperm endpoints).subperm
  length_drawEndpoints count endpoints := by
    rw [hdraw, List.length_take, (hperm endpoints).length_eq]

/-- Taking the first endpoints is a draw. -/
lemma picks_first : Choices.first.Picks :=
  picks_of_perm (fun endpoints => List.Perm.refl endpoints) fun _ _ => rfl

/-- Of distinct endpoints, distinct ones are drawn. -/
lemma Picks.nodup_drawEndpoints (hpicks : choices.Picks) (hnodup : endpoints.Nodup) (count : Nat) :
    (choices.drawEndpoints count endpoints).Nodup := by
  obtain ⟨drawn, hperm, hsublist⟩ := hpicks.drawEndpoints_subperm count endpoints
  exact hperm.nodup_iff.mp (hnodup.sublist hsublist)

/-- Where at most one endpoint is drawn, none is drawn twice, even if it is listed twice. -/
lemma Picks.nodup_drawEndpoints_of_le_one (hpicks : choices.Picks) (endpoints : List Endpoint)
    (hcount : count ≤ 1) : (choices.drawEndpoints count endpoints).Nodup := by
  have hlength := hpicks.length_drawEndpoints count endpoints
  generalize choices.drawEndpoints count endpoints = drawn at hlength
  match drawn with
  | [] => exact .nil
  | [e] => exact List.nodup_singleton e
  | _ :: _ :: _ =>
    rw [List.length_cons, List.length_cons] at hlength
    omega

/-- The choices of a node that takes one endpoint before all others. -/
def preferring (endpoint : Endpoint) : Choices where
  order := id
  drawRecords := List.take
  drawEndpoints count endpoints :=
    (endpoints.filter (· == endpoint) ++ endpoints.filter fun e => !(e == endpoint)).take count

/-- Taking one endpoint before all others is a draw too. -/
lemma picks_preferring (endpoint : Endpoint) : (preferring endpoint).Picks :=
  picks_of_perm (fun endpoints => List.filter_append_perm (· == endpoint) endpoints) fun _ _ => rfl

/-- Where an endpoint comes twice and two may be drawn, it may be drawn twice. -/
lemma two_le_count_preferring (htwice : [endpoint, endpoint].Sublist endpoints)
    (hcount : 2 ≤ count) :
    2 ≤ ((preferring endpoint).drawEndpoints count endpoints).count endpoint := by
  have hplaces : 2 ≤ endpoints.count endpoint := List.replicate_sublist_iff.mp htwice
  have hfront : endpoints.filter (· == endpoint) =
      List.replicate (endpoints.count endpoint) endpoint := List.filter_beq endpoint
  have htwo : (endpoints.filter (· == endpoint) ++
      endpoints.filter fun e => !(e == endpoint)).take 2 = [endpoint, endpoint] := by
    rw [hfront, List.take_append_of_le_length (by rwa [List.length_replicate]),
      List.take_replicate, Nat.min_eq_left hplaces]
    rfl
  refine List.replicate_sublist_iff.mp ?_
  change [endpoint, endpoint].Sublist _
  rw [← htwo]
  exact List.take_sublist_take_left hcount

end Choices

/-! ## A set that is kept as a list -/

section Insertion

variable {old new : List Endpoint} {endpoint : Endpoint}

/-- A set has what it had, and all that is added. -/
lemma mem_foldl_insert : endpoint ∈ new.foldl (fun set e => set.insert e) old ↔
    endpoint ∈ old ∨ endpoint ∈ new := by
  induction new generalizing old with
  | nil => simp
  | cons e rest ih =>
    rw [List.foldl_cons, ih, List.mem_insert_iff, List.mem_cons]
    tauto

lemma nodup_foldl_insert (hold : old.Nodup) (new : List Endpoint) :
    (new.foldl (fun set e => set.insert e) old).Nodup :=
  List.foldlRecOn new _ hold fun _ hset _ _ => hset.insert

/-- At most what is added finds a place. -/
lemma foldl_insert_subperm (hold : old.Nodup) (new : List Endpoint) :
    (new.foldl (fun set e => set.insert e) old).Subperm (old ++ new) :=
  List.subperm_of_subset (nodup_foldl_insert hold new) fun _ he =>
    List.mem_append.mpr (mem_foldl_insert.mp he)

/-- What is new finds a place each. -/
lemma foldl_insert_perm (hold : old.Nodup) (hnew : new.Nodup) (hapart : ∀ e ∈ new, e ∉ old) :
    (new.foldl (fun set e => set.insert e) old).Perm (old ++ new) := by
  have hnodup : (old ++ new).Nodup :=
    hold.append hnew fun e hknown hadded => hapart e hadded hknown
  rw [List.perm_ext_iff_of_nodup (nodup_foldl_insert hold new) hnodup]
  exact fun e => mem_foldl_insert.trans List.mem_append.symm

end Insertion

/-- The endpoint at which a connection attempt begins. -/
def ManagerEffect.dialed? : ManagerEffect → Option Endpoint
  | .dial endpoint => some endpoint
  | _ => none

/-- Beginning an attempt at each of some endpoints is beginning attempts at just these. -/
lemma ManagerEffect.filterMap_dialed?_map_dial (endpoints : List Endpoint) :
    (endpoints.map dial).filterMap dialed? = endpoints := by
  rw [List.filterMap_map]
  exact List.filterMap_some

/-- The endpoint at which a connection attempt is said to be over. -/
def ManagerCommand.finished? : ManagerCommand → Option Endpoint
  | .dialFinished endpoint => some endpoint
  | _ => none

/-- Attempts that begin together are at different endpoints: the seeds are distinct, or no two
attempts begin together. -/
def Settings.DialsApart (s : Settings) : Prop :=
  s.seeds.Nodup ∨ min s.minDesiredConnections s.maxConcurrentDials ≤ 1

namespace Manager

variable {m : Manager} {choices : Choices} {moment : Moment} {c : ManagerCommand}
  {settings : Settings} {endpoint : Endpoint} {source : List Endpoint}
  {r : Manager × List ManagerEffect}

/-! ## What a command does about attempts -/

/-- The endpoints of a list to which no live connection leads and at which no attempt is known to be
under way. -/
def openAmong (m : Manager) (source : List Endpoint) : List Endpoint :=
  source.filter fun e => !m.dialing.contains e && !m.registry.isConnectedTo e

/-- An endpoint of a list is open if no attempt is under way there and no connection leads to it. -/
lemma mem_openAmong_iff : endpoint ∈ m.openAmong source ↔
    endpoint ∈ source ∧ endpoint ∉ m.dialing ∧ ∀ p ∈ m.registry.peers, ¬ p.2.LeadsTo endpoint := by
  rw [openAmong, List.mem_filter, Bool.and_eq_true, Bool.not_eq_true', Bool.not_eq_true',
    ← Bool.not_eq_true, ← Bool.not_eq_true, List.contains_iff_mem, Registry.isConnectedTo_iff]
  simp only [not_exists, not_and]

/-- How many attempts may begin: as many as connections are wanted, and as may be under way. -/
def attemptsDue (m : Manager) : Nat :=
  min (m.settings.minDesiredConnections - (m.registry.size + m.dialing.length))
    (m.settings.maxConcurrentDials - m.dialing.length)

/-- The endpoints at which attempts begin, if they are drawn from a list. -/
def drawnFrom (m : Manager) (choices : Choices) (source : List Endpoint) : List Endpoint :=
  choices.drawEndpoints m.attemptsDue (m.openAmong source)

/-- What a command does about attempts: it may begin some when it is time to look for connections,
at endpoints from the address book or at seeds, it ends the one that it tells is over, and otherwise
it has nothing to do with them. -/
inductive Dials (m : Manager) (choices : Choices) :
    ManagerCommand → Manager × List ManagerEffect → Prop
  | begins {r : Manager × List ManagerEffect} {source : List Endpoint}
    (hsource : source = m.book.endpoints ∨ source = m.settings.seeds)
    (hdialing : r.1.dialing =
      (m.drawnFrom choices source).foldl (fun dialing e => dialing.insert e) m.dialing)
    (heffects : r.2.filterMap ManagerEffect.dialed? = m.drawnFrom choices source) :
    Dials m choices .tick r
  | ends {r : Manager × List ManagerEffect} {endpoint : Endpoint}
    (hdialing : r.1.dialing = m.dialing.erase endpoint)
    (heffects : r.2.filterMap ManagerEffect.dialed? = []) :
    Dials m choices (.dialFinished endpoint) r
  | unconcerned {r : Manager × List ManagerEffect} {c : ManagerCommand}
    (hc : c.finished? = none) (hdialing : r.1.dialing = m.dialing)
    (heffects : r.2.filterMap ManagerEffect.dialed? = []) : Dials m choices c r

/-- A command that begins no attempt and ends none has nothing to do with them. -/
lemma dials_of_quiet (hc : c.finished? = none) (hdialing : r.1.dialing = m.dialing)
    (hquiet : ∀ effect ∈ r.2, effect.dialed? = none) : m.Dials choices c r :=
  .unconcerned hc hdialing (List.filterMap_eq_nil_iff.mpr hquiet)

/-- Endpoints that are open are drawn as far as connections are wanted and attempts may be under
way. -/
lemma dialSome_dials (m : Manager) (choices : Choices)
    (hsource : source = m.book.endpoints ∨ source = m.settings.seeds) :
    m.Dials choices .tick (m.dialSome choices
      (m.settings.minDesiredConnections - (m.registry.size + m.dialing.length))
      (m.openAmong source)) :=
  .begins hsource rfl (ManagerEffect.filterMap_dialed?_map_dial _)

/-- What may be dialed from the address book are its open endpoints. -/
lemma filter_unconnectedPeers (m : Manager) :
    m.unconnectedPeers.filter (!m.dialing.contains ·) = m.openAmong m.book.endpoints :=
  List.filter_filter

/-- Looking for connections begins attempts at endpoints of the book, or at seeds, and at nothing
else. -/
lemma discover_dials (m : Manager) (choices : Choices) :
    m.Dials choices .tick (m.discover choices) := by
  rw [discover, filter_unconnectedPeers]
  dsimp only
  split_ifs
  · exact dials_of_quiet rfl rfl (List.forall_mem_nil _)
  · exact m.dialSome_dials choices (.inl rfl)
  · exact dials_of_quiet rfl rfl (List.forall_mem_map.mpr fun _ _ => rfl)
  · exact m.dialSome_dials choices (.inr rfl)

/-- Whatever a session tells, no attempt begins or ends by it. -/
lemma onNotice_dials (m : Manager) (choices : Choices) (moment : Moment) (peer : PeerId)
    (n : PeerNotice) : m.Dials choices (.notice peer n) (m.onNotice choices moment peer n) := by
  cases n with
  | introduced version =>
    have hjudges := m.judges_allow peer version moment.now
    unfold onNotice
    dsimp only
    generalize m.allow peer version moment.now = judged at hjudges
    cases hjudges <;> exact dials_of_quiet rfl rfl (List.forall_mem_singleton.mpr rfl)
  | remoteHeight height =>
    rw [onNotice, raiseHeight]
    split
    · exact dials_of_quiet rfl rfl (List.forall_mem_nil _)
    · split
      · exact dials_of_quiet rfl rfl (List.forall_mem_singleton.mpr rfl)
      · exact dials_of_quiet rfl rfl (List.forall_mem_nil _)
  | delivered inventory =>
    exact dials_of_quiet rfl rfl
      (List.forall_mem_cons.mpr ⟨rfl, List.forall_mem_map.mpr fun _ _ => rfl⟩)
  | addressRequest => exact dials_of_quiet rfl rfl (List.forall_mem_singleton.mpr rfl)
  | ready | filterChanged | suggested | disconnected =>
    exact dials_of_quiet rfl rfl (List.forall_mem_nil _)

/-- Handling a command begins attempts, ends one, or has nothing to do with them. -/
lemma handle_dials (m : Manager) (choices : Choices) (moment : Moment) (c : ManagerCommand) :
    m.Dials choices c (m.handle choices moment c) := by
  cases c with
  | connect remote direction =>
    have hanswers := m.answers_connect choices remote direction
    rw [handle]
    generalize m.connect choices remote direction = r at hanswers
    cases hanswers <;> exact dials_of_quiet rfl rfl (List.forall_mem_singleton.mpr rfl)
  | notice peer n => exact m.onNotice_dials choices moment peer n
  | tick =>
    rw [handle]
    split
    · exact m.discover_dials choices
    · exact dials_of_quiet rfl rfl (List.forall_mem_nil _)
  | dialFinished endpoint => exact .ends rfl rfl
  | shutdown caller =>
    rw [handle, beginShutdown]
    split
    · exact dials_of_quiet rfl rfl (List.forall_mem_map.mpr fun _ _ => rfl)
    · exact dials_of_quiet rfl rfl (List.forall_mem_nil _)
    · exact dials_of_quiet rfl rfl (List.forall_mem_nil _)
  | relay | broadcast => exact dials_of_quiet rfl rfl (List.forall_mem_map.mpr fun _ _ => rfl)
  | addPeers | inspect | rejectionFinished =>
    exact dials_of_quiet rfl rfl (List.forall_mem_nil _)

/-- Attempts do not matter to a manager that stops. -/
lemma dialing_stopIfDone (m : Manager) : m.stopIfDone.1.dialing = m.dialing := by
  unfold stopIfDone
  split
  · split <;> rfl
  · rfl
  · rfl

/-- Stopping after a command changes nothing about attempts. -/
lemma Dials.stopIfDone (h : m.Dials choices c r) :
    m.Dials choices c (r.1.stopIfDone.1, r.2 ++ r.1.stopIfDone.2) := by
  have hdialing := r.1.dialing_stopIfDone
  have heffects : (r.2 ++ r.1.stopIfDone.2).filterMap ManagerEffect.dialed? =
      r.2.filterMap ManagerEffect.dialed? := by
    have hlast : r.1.stopIfDone.2.filterMap ManagerEffect.dialed? = [] := by
      refine List.filterMap_eq_nil_iff.mpr fun effect heffect => ?_
      obtain ⟨callers, rfl⟩ := (stopIfDone_eq r.1).2.2 effect heffect
      rfl
    rw [List.filterMap_append, hlast, List.append_nil]
  cases h with
  | begins hsource hadds hbegun =>
    exact .begins hsource (hdialing.trans hadds) (heffects.trans hbegun)
  | ends herases hnone => exact .ends (hdialing.trans herases) (heffects.trans hnone)
  | unconcerned hc hkeeps hnone =>
    exact .unconcerned hc (hdialing.trans hkeeps) (heffects.trans hnone)

/-- Taking a command deals with attempts in one of these ways too, unless the manager has
stopped. -/
lemma step_dials (hlive : m.isStopped = false) (choices : Choices) (moment : Moment)
    (c : ManagerCommand) : m.Dials choices c (m.step choices moment c) := by
  rw [step_of_live hlive]
  exact (m.handle_dials choices moment c).stopIfDone

/-- Looking for connections opens none yet: the attempts are still to succeed. -/
lemma registry_step_tick (m : Manager) (choices : Choices) (moment : Moment) :
    (m.step choices moment .tick).1.registry = m.registry := by
  cases hlive : m.isStopped with
  | true => rw [step_of_stopped hlive]
  | false =>
    rw [step_of_live hlive]
    dsimp only
    rw [(stopIfDone_eq _).1, handle]
    split
    · obtain ⟨dialing, hdiscover⟩ := m.discover_eq choices
      rw [hdiscover]
    · rfl

/-- Every command leaves the address book with each record under its endpoint, and no endpoint
twice. -/
lemma keyed_step (hkeyed : m.book.Keyed) (choices : Choices) (moment : Moment)
    (c : ManagerCommand) : (m.step choices moment c).1.book.Keyed := by
  obtain ⟨seen, hbook⟩ := m.book_step choices moment c
  exact hbook ▸ hkeyed.addAll seen

/-! ## What is drawn -/

/-- Attempts begin only where none is under way and no live connection leads. -/
lemma avoids_of_mem_drawnFrom (hpicks : choices.Picks)
    (hdrawn : endpoint ∈ m.drawnFrom choices source) :
    endpoint ∉ m.dialing ∧ ∀ p ∈ m.registry.peers, ¬ p.2.LeadsTo endpoint :=
  (mem_openAmong_iff.mp ((hpicks.drawEndpoints_subperm _ _).subset hdrawn)).2

/-- An attempt begins only when it is time to look for connections, and only where none leads. -/
lemma dialed_of_mem_step (hpicks : choices.Picks)
    (hdialed : .dial endpoint ∈ (m.step choices moment c).2) :
    c = .tick ∧ endpoint ∉ m.dialing ∧ ∀ p ∈ m.registry.peers, ¬ p.2.LeadsTo endpoint := by
  cases hlive : m.isStopped with
  | true =>
    rw [step_of_stopped hlive] at hdialed
    exact absurd hdialed List.not_mem_nil
  | false =>
    have hdials := step_dials hlive choices moment c
    have hmem : endpoint ∈ (m.step choices moment c).2.filterMap ManagerEffect.dialed? :=
      List.mem_filterMap.mpr ⟨.dial endpoint, hdialed, rfl⟩
    generalize m.step choices moment c = r at hdials hmem
    cases hdials with
    | begins _ _ heffects => exact ⟨rfl, avoids_of_mem_drawnFrom hpicks (heffects ▸ hmem)⟩
    | ends _ heffects | unconcerned _ _ heffects =>
      rw [heffects] at hmem
      exact absurd hmem List.not_mem_nil

/-- No more attempts begin than are due. -/
lemma length_drawnFrom_le (hpicks : choices.Picks) (m : Manager) (source : List Endpoint) :
    (m.drawnFrom choices source).length ≤ m.attemptsDue := by
  rw [drawnFrom, hpicks.length_drawEndpoints]
  exact Nat.min_le_left _ _

/-- No more attempts are due than connections are wanted, and than may be under way. -/
lemma attemptsDue_le (m : Manager) :
    m.attemptsDue ≤ min m.settings.minDesiredConnections m.settings.maxConcurrentDials :=
  min_le_min (Nat.sub_le _ _) (Nat.sub_le _ _)

/-- Endpoints that are drawn together are distinct: those of the book always, seeds as far as they
are told apart. -/
lemma nodup_drawnFrom (hpicks : choices.Picks) (hkeyed : m.book.Keyed)
    (hapart : m.settings.DialsApart)
    (hsource : source = m.book.endpoints ∨ source = m.settings.seeds) :
    (m.drawnFrom choices source).Nodup := by
  rcases hsource with rfl | rfl
  · exact hpicks.nodup_drawEndpoints (hkeyed.nodup.filter _) _
  · rcases hapart with hseeds | hone
    · exact hpicks.nodup_drawEndpoints (hseeds.filter _) _
    · exact hpicks.nodup_drawEndpoints_of_le_one _ (m.attemptsDue_le.trans hone)

/-! ## Attempts under way -/

/-- A manager with the attempts that are under way. -/
structure Attempts where
  manager : Manager
  /-- The endpoint of each attempt that was begun and is not over yet. -/
  underWay : List Endpoint

namespace Attempts

/-- A manager that took no command. -/
def start (settings : Settings) : Attempts := ⟨Manager.start settings, []⟩

/-- The attempts after one more command. -/
def take (a : Attempts) (choices : Choices) (moment : Moment) (c : ManagerCommand) : Attempts :=
  let next := a.manager.step choices moment c
  ⟨next.1, a.underWay ++ next.2.filterMap ManagerEffect.dialed?⟩

/-- The attempts after one at an endpoint is over. -/
def finish (a : Attempts) (choices : Choices) (moment : Moment) (endpoint : Endpoint) : Attempts :=
  { a.take choices moment (.dialFinished endpoint) with underWay := a.underWay.erase endpoint }

/-- What can come about: that an attempt is over is told once of each attempt under way, and to a
manager that has not stopped; all else comes in any order. -/
inductive Reachable (settings : Settings) : Attempts → Prop
  | start : Reachable settings (start settings)
  | take {a : Attempts} (h : Reachable settings a) {choices : Choices} (hpicks : choices.Picks)
    (moment : Moment) {c : ManagerCommand} (hc : c.finished? = none) :
    Reachable settings (a.take choices moment c)
  | finish {a : Attempts} (h : Reachable settings a) (choices : Choices) (moment : Moment)
    {endpoint : Endpoint} (hendpoint : endpoint ∈ a.underWay)
    (hlive : a.manager.isStopped = false) :
    Reachable settings (a.finish choices moment endpoint)

/-- What holds of a manager and the attempts under way. -/
structure Sound (settings : Settings) (a : Attempts) : Prop where
  settings_eq : a.manager.settings = settings
  keyed : a.manager.book.Keyed
  nodup : a.manager.dialing.Nodup
  length_le : a.manager.dialing.length ≤ settings.maxConcurrentDials
  subperm : a.manager.dialing.Subperm a.underWay
  agree : settings.DialsApart → a.manager.dialing.Perm a.underWay

variable {a : Attempts}

/-- At the start, no attempt is under way. -/
lemma sound_start (settings : Settings) : (start settings).Sound settings where
  settings_eq := rfl
  keyed := AddressBook.keyed_ofSize _
  nodup := .nil
  length_le := Nat.zero_le _
  subperm := .refl _
  agree _ := .refl _

/-- Where attempts begin the manager has room for them, and knows of none at those endpoints. -/
lemma Sound.begins (h : a.Sound settings) (hpicks : choices.Picks)
    (hsource : source = a.manager.book.endpoints ∨ source = a.manager.settings.seeds)
    {manager : Manager} (hsettings : manager.settings = settings) (hkeyed : manager.book.Keyed)
    (hdialing : manager.dialing = (a.manager.drawnFrom choices source).foldl
      (fun dialing e => dialing.insert e) a.manager.dialing) :
    Sound settings ⟨manager, a.underWay ++ a.manager.drawnFrom choices source⟩ := by
  have hdrawn := length_drawnFrom_le hpicks a.manager source
  have hsubperm := foldl_insert_subperm h.nodup (a.manager.drawnFrom choices source)
  rw [← hdialing] at hsubperm
  refine ⟨hsettings, hkeyed, ?_, ?_, ?_, fun hapart => ?_⟩
  · exact hdialing ▸ nodup_foldl_insert h.nodup _
  · have hlength := hsubperm.length_le
    have hroom := h.length_le
    rw [List.length_append] at hlength
    rw [attemptsDue, h.settings_eq] at hdrawn
    dsimp only
    omega
  · exact hsubperm.trans (h.subperm.append (.refl _))
  · have hnodup := nodup_drawnFrom hpicks h.keyed (h.settings_eq.symm ▸ hapart) hsource
    have hfresh := foldl_insert_perm h.nodup hnodup fun e he =>
      (avoids_of_mem_drawnFrom hpicks he).1
    rw [← hdialing] at hfresh
    exact hfresh.trans ((h.agree hapart).append_right _)

/-- A manager that keeps its attempts keeps what holds. -/
lemma Sound.unconcerned (h : a.Sound settings) {manager : Manager}
    (hsettings : manager.settings = settings) (hkeyed : manager.book.Keyed)
    (hdialing : manager.dialing = a.manager.dialing) :
    Sound settings ⟨manager, a.underWay⟩ where
  settings_eq := hsettings
  keyed := hkeyed
  nodup := hdialing.symm ▸ h.nodup
  length_le := hdialing.symm ▸ h.length_le
  subperm := hdialing.symm ▸ h.subperm
  agree hapart := hdialing.symm ▸ h.agree hapart

/-- That an attempt is over makes room for another at the same endpoint. -/
lemma Sound.ends (h : a.Sound settings) {manager : Manager}
    (hsettings : manager.settings = settings) (hkeyed : manager.book.Keyed)
    (hdialing : manager.dialing = a.manager.dialing.erase endpoint) :
    Sound settings ⟨manager, a.underWay.erase endpoint⟩ where
  settings_eq := hsettings
  keyed := hkeyed
  nodup := hdialing.symm ▸ h.nodup.erase endpoint
  length_le := hdialing.symm ▸ List.length_erase_le.trans h.length_le
  subperm := hdialing.symm ▸ h.subperm.erase endpoint
  agree hapart := hdialing.symm ▸ (h.agree hapart).erase endpoint

/-- A manager that has stopped takes nothing up. -/
lemma take_of_stopped (hstopped : a.manager.isStopped = true) (choices : Choices) (moment : Moment)
    (c : ManagerCommand) : a.take choices moment c = a := by
  rw [take, step_of_stopped hstopped]
  exact congrArg (Attempts.mk a.manager) (List.append_nil _)

/-- A command that ends no attempt keeps the account of those under way. -/
lemma Sound.take (h : a.Sound settings) (hpicks : choices.Picks) (moment : Moment)
    (hc : c.finished? = none) : (a.take choices moment c).Sound settings := by
  cases hlive : a.manager.isStopped with
  | true => rwa [take_of_stopped hlive]
  | false =>
    have hdials := step_dials hlive choices moment c
    have hsettings := (settings_step a.manager choices moment c).trans h.settings_eq
    have hkeyed := keyed_step h.keyed choices moment c
    rw [Attempts.take]
    generalize a.manager.step choices moment c = r at hdials hsettings hkeyed
    cases hdials with
    | begins hsource hdialing heffects =>
      rw [heffects]
      exact h.begins hpicks hsource hsettings hkeyed hdialing
    | ends => exact absurd hc (Option.some_ne_none _)
    | unconcerned _ hdialing heffects =>
      rw [heffects, List.append_nil]
      exact h.unconcerned hsettings hkeyed hdialing

/-- The end of an attempt strikes it off the account. -/
lemma Sound.finish (h : a.Sound settings) (choices : Choices) (moment : Moment)
    (hlive : a.manager.isStopped = false) (endpoint : Endpoint) :
    (a.finish choices moment endpoint).Sound settings := by
  have hdials := step_dials hlive choices moment (.dialFinished endpoint)
  have hsettings :=
    (settings_step a.manager choices moment (.dialFinished endpoint)).trans h.settings_eq
  have hkeyed := keyed_step h.keyed choices moment (.dialFinished endpoint)
  rw [Attempts.finish, Attempts.take]
  generalize a.manager.step choices moment (.dialFinished endpoint) = r at hdials hsettings hkeyed
  dsimp only
  cases hdials with
  | ends hdialing => exact h.ends hsettings hkeyed hdialing
  | unconcerned hc => exact absurd hc (Option.some_ne_none _)

/-- Whatever happens, the account of the attempts under way is kept. -/
lemma Reachable.sound (h : Reachable settings a) : a.Sound settings := by
  induction h with
  | start => exact sound_start settings
  | take _ hpicks moment hc ih => exact ih.take hpicks moment hc
  | finish _ choices moment _ hlive ih => exact ih.finish choices moment hlive _

/-- Looking for connections, the manager begins no more attempts than are desired. -/
lemma Sound.size_add_length_take_tick_le (h : a.Sound settings) (hapart : settings.DialsApart)
    (hpicks : choices.Picks) (moment : Moment) :
    (a.take choices moment .tick).manager.registry.size +
        (a.take choices moment .tick).underWay.length ≤
      max settings.minDesiredConnections (a.manager.registry.size + a.underWay.length) := by
  cases hlive : a.manager.isStopped with
  | true =>
    rw [take_of_stopped hlive]
    exact Nat.le_max_right _ _
  | false =>
    have hdials := step_dials hlive choices moment .tick
    have hknown : a.manager.dialing.length = a.underWay.length := (h.agree hapart).length_eq
    rw [Attempts.take]
    dsimp only
    rw [registry_step_tick, List.length_append]
    generalize a.manager.step choices moment .tick = r at hdials
    cases hdials with
    | @begins _ source hsource hdialing heffects =>
      have hdrawn := length_drawnFrom_le hpicks a.manager source
      rw [attemptsDue, h.settings_eq, hknown] at hdrawn
      rw [heffects]
      omega
    | unconcerned _ _ heffects =>
      rw [heffects]
      exact Nat.le_max_right _ _

/-! ## Seeds that are listed twice -/

/-- A node that knows nobody looks for connections among its seeds. -/
lemma step_tick_start (hdesired : 0 < settings.minDesiredConnections) (choices : Choices)
    (moment : Moment) :
    let drawn := choices.drawEndpoints
      (min settings.minDesiredConnections settings.maxConcurrentDials) settings.seeds
    (Manager.start settings).step choices moment .tick =
      ({ Manager.start settings with
          dialing := drawn.foldl (fun dialing e => dialing.insert e) [] }, drawn.map .dial) := by
  intro drawn
  have hopen : settings.seeds.filter (fun _ => true) = settings.seeds :=
    List.filter_eq_self.mpr fun _ _ => rfl
  have hdiscover : (Manager.start settings).discover choices =
      (Manager.start settings).dialSome choices settings.minDesiredConnections settings.seeds := by
    -- The book is empty and nothing is connected or dialed, so every seed is a candidate.
    conv_rhs => rw [← hopen]
    exact if_neg (Nat.ne_of_gt hdesired)
  have hhandle : (Manager.start settings).handle choices moment .tick =
      (Manager.start settings).discover choices := rfl
  rw [step_of_live rfl, hhandle, hdiscover]
  exact congrArg (Prod.mk _) (List.append_nil _)

/-- A manager that runs forgets the attempt that is over, and does nothing else about it. -/
lemma finish_of_isRunning (hrunning : a.manager.isRunning = true) (choices : Choices)
    (moment : Moment) (endpoint : Endpoint) : a.finish choices moment endpoint =
      ⟨{ a.manager with dialing := a.manager.dialing.erase endpoint },
        a.underWay.erase endpoint⟩ := by
  have hstill : Manager.isRunning
      { a.manager with dialing := a.manager.dialing.erase endpoint } = true := hrunning
  rw [finish, take, step_of_live (isStopped_of_isRunning hrunning), handle,
    stopIfDone_of_isRunning hstill]

/-- All attempts that the manager knows of may be over. -/
lemma Reachable.drain (h : Reachable settings a) (hrunning : a.manager.isRunning = true) :
    Reachable settings
      ⟨{ a.manager with dialing := [] }, a.underWay.diff a.manager.dialing⟩ := by
  generalize hknown : a.manager.dialing = known
  induction known generalizing a with
  | nil =>
    have hsame : ({ a.manager with dialing := [] } : Manager) = a.manager := by rw [← hknown]
    rw [hsame, List.diff_nil]
    exact h
  | cons e rest ih =>
    have hunder : e ∈ a.underWay := h.sound.subperm.subset (hknown ▸ List.mem_cons_self)
    have hfinished := h.finish .first ⟨0, 0⟩ hunder (isStopped_of_isRunning hrunning)
    rw [finish_of_isRunning hrunning] at hfinished
    have hrest : a.manager.dialing.erase e = rest := by rw [hknown, List.erase_cons_head]
    rw [List.diff_cons]
    exact ih hfinished hrunning hrest

/-- At a seed that is listed twice there is no bound to the attempts. -/
lemma exists_count_ge {endpoint : Endpoint} (htwice : [endpoint, endpoint].Sublist settings.seeds)
    (htwo : 2 ≤ min settings.minDesiredConnections settings.maxConcurrentDials) (n : Nat) :
    ∃ underWay, Reachable settings ⟨Manager.start settings, underWay⟩ ∧
      n ≤ underWay.count endpoint := by
  -- In each round two attempts begin at the seed, and all are over of which the manager knows; of
  -- those at the seed this is one.
  induction n with
  | zero => exact ⟨[], .start, Nat.zero_le _⟩
  | succ n ih =>
    obtain ⟨underWay, hreachable, hcount⟩ := ih
    have hnext := hreachable.take (Choices.picks_preferring endpoint) ⟨0, 0⟩ (c := .tick) rfl
    have hdrawn := Choices.two_le_count_preferring htwice htwo
    rw [take, step_tick_start (by omega)] at hnext
    generalize (Choices.preferring endpoint).drawEndpoints _ settings.seeds = drawn at hnext hdrawn
    have hdrained := hnext.drain rfl
    refine ⟨_, hdrained, ?_⟩
    have honce : (drawn.foldl (fun dialing e => dialing.insert e) []).count endpoint ≤ 1 :=
      List.nodup_iff_count_le_one.mp (nodup_foldl_insert .nil drawn) endpoint
    dsimp only
    rw [List.count_diff, ManagerEffect.filterMap_dialed?_map_dial, List.count_append]
    omega

/-- Whatever comes about, the manager knows of no more attempts than may be under way at a time, of
none twice, and of none that is not under way.  Attempts begin only when it is time to look for
connections, at endpoints to which no live connection leads and at which it knows of none.  Unless a
seed is listed twice and two attempts may begin together, it knows of each: then no two attempts are
under way at one endpoint, they are never more than may be, and looking for connections never makes
the connections and the attempts more than are desired.  Otherwise there is a seed at which any
number of attempts may be under way. -/
theorem attempts_within_bounds (settings : Settings) :
    (∀ a, Reachable settings a →
      a.manager.dialing.Nodup ∧ a.manager.dialing.Subperm a.underWay ∧
      a.manager.dialing.length ≤ settings.maxConcurrentDials ∧
      ∀ choices, choices.Picks → ∀ moment c endpoint,
        .dial endpoint ∈ (a.manager.step choices moment c).2 →
          c = .tick ∧ endpoint ∉ a.manager.dialing ∧
            ∀ p ∈ a.manager.registry.peers, ¬ p.2.LeadsTo endpoint) ∧
    (settings.DialsApart → ∀ a, Reachable settings a →
      a.underWay.Nodup ∧ a.manager.dialing.Perm a.underWay ∧
      a.underWay.length ≤ settings.maxConcurrentDials ∧
      ∀ choices, choices.Picks → ∀ moment, let next := a.take choices moment .tick
        next.manager.registry.size + next.underWay.length ≤
          max settings.minDesiredConnections (a.manager.registry.size + a.underWay.length)) ∧
    (¬ settings.DialsApart → ∃ endpoint ∈ settings.seeds, ∀ n, ∃ a, Reachable settings a ∧
      n ≤ a.underWay.count endpoint) := by
  refine ⟨fun a h => ?_, fun hapart a h => ?_, fun hapart => ?_⟩
  · have hsound := h.sound
    refine ⟨hsound.nodup, hsound.subperm, hsound.length_le, ?_⟩
    intro choices hpicks moment c endpoint hdialed
    exact dialed_of_mem_step hpicks hdialed
  · have hsound := h.sound
    have hagree := hsound.agree hapart
    refine ⟨hagree.nodup_iff.mp hsound.nodup, hagree, hagree.length_eq ▸ hsound.length_le, ?_⟩
    intro choices hpicks moment
    exact hsound.size_add_length_take_tick_le hapart hpicks moment
  · obtain ⟨hseeds, htwo⟩ := not_or.mp hapart
    rw [List.nodup_iff_sublist, not_forall_not] at hseeds
    obtain ⟨endpoint, htwice⟩ := hseeds
    refine ⟨endpoint, htwice.subset List.mem_cons_self, fun n => ?_⟩
    obtain ⟨underWay, hreachable, hcount⟩ := exists_count_ge htwice (Nat.lt_of_not_le htwo) n
    exact ⟨_, hreachable, hcount⟩

/-- One seed is dialed once. -/
theorem attempts_within_bounds_of_one_seed :
    let seed : Endpoint := ⟨default, 1⟩
    let settings := { Settings.standard (.ofMagic 0 0) with seeds := [seed] }
    let a := (start settings).take .first ⟨0, 0⟩ .tick
    a.manager.dialing.Nodup ∧ a.underWay = [seed] ∧ a.underWay.Nodup ∧ a.underWay.length ≤ 4 := by
  intro seed settings a
  have hreachable : Reachable settings a := .take .start Choices.picks_first _ rfl
  have hapart : settings.DialsApart := .inl (List.nodup_singleton seed)
  obtain ⟨hknown, hagree, -⟩ := attempts_within_bounds settings
  obtain ⟨hnodup, -⟩ := hknown a hreachable
  obtain ⟨hdistinct, -, hbounded, -⟩ := hagree hapart a hreachable
  exact ⟨hnodup, rfl, hdistinct, hbounded⟩

/-- Where two attempts may be under way, three come to be at a seed that is listed twice. -/
theorem attempts_exceed_bounds :
    let seed : Endpoint := ⟨default, 1⟩
    let settings : Settings :=
      { Settings.standard (.ofMagic 0 0) with
        minDesiredConnections := 2, maxConcurrentDials := 2, seeds := [seed, seed] }
    ∃ a, Reachable settings a ∧ a.underWay = [seed, seed, seed] ∧ a.manager.dialing = [seed] := by
  intro seed settings
  let first := (start settings).take .first ⟨0, 0⟩ .tick
  have hfirst : Reachable settings first := .take .start Choices.picks_first _ rfl
  have hover : Reachable settings (first.finish .first ⟨0, 0⟩ seed) :=
    hfirst.finish .first ⟨0, 0⟩ (by decide +kernel) rfl
  exact ⟨_, hover.take Choices.picks_first ⟨0, 0⟩ (c := .tick) rfl, by decide +kernel,
    by decide +kernel⟩

end Attempts

end Manager

end PeerNet
