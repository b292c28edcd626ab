import PeerNet.Proofs.Manager.Presence

/-!
# How the node stops

From the first request to stop on the manager opens nothing any more (`ManagerEffect.isOpening`),
says farewell to each live connection once, and waits until the last one is gone.  Then, and not
before, it answers all who asked it to stop up to then, with one answer, and takes no more commands.

What one command does is said by `Manager.phase_handle`, which tells how the callers gather, by
`Manager.handle_permits`, which tells what may be wanted, and by `Manager.step_of_closing`, which
tells when the manager stops; what a manager that is closing does over commands is said by
`Manager.Closing.concludes`.
-/

namespace PeerNet

/-- Whether an effect opens something: a connection, a notice to a stream that is turned away, or a
connection attempt. -/
def ManagerEffect.isOpening : ManagerEffect → Bool
  | .accepted _ | .rejected (some _) | .dial _ => true
  | .rejected none | .answer _ _ | .command _ _ | .report _ _ | .stopped _ => false

/-- The connection that is told that the node stops. -/
def ManagerEffect.farewell? : ManagerEffect → Option PeerId
  | .command peer (.disconnect .shutdown) => some peer
  | _ => none

/-- The callers that are told that the node has stopped. -/
def ManagerEffect.answered? : ManagerEffect → Option (List Nat)
  | .stopped callers => some callers
  | _ => none

/-- Who asks the node to stop. -/
def ManagerCommand.caller? : ManagerCommand → Option Nat
  | .shutdown caller => some caller
  | _ => none

/-- Only a call to stop has a caller. -/
lemma ManagerCommand.caller?_eq_none {c : ManagerCommand} (h : ∀ caller, c ≠ .shutdown caller) :
    c.caller? = none := by
  cases c with
  | shutdown caller => exact absurd rfl (h caller)
  | _ => rfl

namespace Manager

variable {m : Manager} {callers : List Nat} {choices : Choices} {moment : Moment}
  {c : ManagerCommand}

/-! ## A command -/

/-- Only who asks the node to stop has a part in whether it runs. -/
lemma phase_handle (m : Manager) (choices : Choices) (moment : Moment) (hc : c.caller? = none) :
    (m.handle choices moment c).1.phase = m.phase := by
  cases c with
  | shutdown caller => exact Option.noConfusion rfl (heq_of_eq hc)
  | connect remote direction =>
    have hanswers := m.answers_connect choices remote direction
    rw [handle]
    generalize m.connect choices remote direction = r at hanswers
    cases hanswers <;> rfl
  | notice peer n => exact m.phase_onNotice choices moment peer n
  | tick =>
    rw [handle]
    split
    · obtain ⟨dialing, hdiscover⟩ := m.discover_eq choices
      rw [hdiscover]
    · rfl
  | addPeers | relay | broadcast | inspect | dialFinished | rejectionFinished => rfl

/-- While the manager is closing, the callers gather in order. -/
lemma phase_handle_of_closing (hphase : m.phase = .closing callers) (choices : Choices)
    (moment : Moment) (c : ManagerCommand) :
    (m.handle choices moment c).1.phase = .closing (callers ++ c.caller?.toList) := by
  cases hc : c.caller? with
  | none => rw [m.phase_handle choices moment hc, hphase, Option.toList_none, List.append_nil]
  | some caller =>
    cases c with
    | shutdown caller' =>
      obtain rfl := Option.some.inj hc
      rw [handle, beginShutdown, hphase]
      rfl
    | _ => exact Option.noConfusion rfl (heq_of_eq hc)

/-- What handling a command may want done: no caller is answered, and unless the manager runs
nothing is opened and nobody is told to leave. -/
structure Permits (m : Manager) (effect : ManagerEffect) : Prop where
  unanswered : effect.answered? = none
  closed : m.isRunning = false → effect.isOpening = false
  settled : m.isRunning = false → effect.farewell? = none

/-- What is wanted in any phase. -/
lemma permits_of_routine {effect : ManagerEffect} (hanswered : effect.answered? = none)
    (hopening : effect.isOpening = false) (hfarewell : effect.farewell? = none) :
    m.Permits effect :=
  ⟨hanswered, fun _ => hopening, fun _ => hfarewell⟩

/-- What is wanted only while the manager runs. -/
lemma permits_of_isRunning (hrunning : m.isRunning = true) {effect : ManagerEffect}
    (hanswered : effect.answered? = none) : m.Permits effect := by
  refine ⟨hanswered, fun hlate => ?_, fun hlate => ?_⟩
  · exact Bool.noConfusion (hrunning.symm.trans hlate)
  · exact Bool.noConfusion (hrunning.symm.trans hlate)

/-- Announcing something opens nothing, and tells nobody to leave. -/
lemma announce_permits (m : Manager) (inventory : Inventory) (source : Option PeerId) :
    ∀ effect ∈ m.announce inventory source, m.Permits effect :=
  List.forall_mem_map.mpr fun _ _ => permits_of_routine rfl rfl rfl

/-- A connection is opened only by a manager that runs. -/
lemma connect_permits (m : Manager) (choices : Choices) (remote : Endpoint)
    (direction : Direction) :
    ∀ effect ∈ (m.connect choices remote direction).2, m.Permits effect := by
  have hanswers := m.answers_connect choices remote direction
  generalize m.connect choices remote direction = r at hanswers
  cases hanswers with
  | late | silent => exact List.forall_mem_singleton.mpr (permits_of_routine rfl rfl rfl)
  | accepted hrunning => exact List.forall_mem_singleton.mpr (permits_of_isRunning hrunning rfl)
  | notified hrunning => exact List.forall_mem_singleton.mpr (permits_of_isRunning hrunning rfl)

/-- Whatever a session tells, nothing is opened and nobody is told to leave. -/
lemma onNotice_permits (m : Manager) (choices : Choices) (moment : Moment) (peer : PeerId)
    (n : PeerNotice) : ∀ effect ∈ (m.onNotice choices moment peer n).2, m.Permits effect := by
  cases n with
  | introduced version => exact List.forall_mem_singleton.mpr (permits_of_routine rfl rfl rfl)
  | addressRequest => exact List.forall_mem_singleton.mpr (permits_of_routine rfl rfl rfl)
  | delivered inventory =>
    exact List.forall_mem_cons.mpr
      ⟨permits_of_routine rfl rfl rfl, m.announce_permits inventory (some peer)⟩
  | remoteHeight height =>
    rw [onNotice, raiseHeight]
    split
    · exact List.forall_mem_nil _
    · split
      · exact List.forall_mem_singleton.mpr (permits_of_routine rfl rfl rfl)
      · exact List.forall_mem_nil _
  | ready | filterChanged | suggested | disconnected => exact List.forall_mem_nil _

/-- A manager that runs may begin attempts. -/
lemma dialSome_permits (hrunning : m.isRunning = true) (choices : Choices) (wanted : Nat)
    (candidates : List Endpoint) :
    ∀ effect ∈ (m.dialSome choices wanted candidates).2, m.Permits effect :=
  List.forall_mem_map.mpr fun _ _ => permits_of_isRunning hrunning rfl

/-- A manager that runs may look for connections. -/
lemma discover_permits (hrunning : m.isRunning = true) (choices : Choices) :
    ∀ effect ∈ (m.discover choices).2, m.Permits effect := by
  simp only [discover]
  split
  · exact List.forall_mem_nil _
  · split
    · exact dialSome_permits hrunning choices _ _
    · split
      · exact List.forall_mem_map.mpr fun _ _ => permits_of_routine rfl rfl rfl
      · exact dialSome_permits hrunning choices _ _

/-- Every command keeps to what the phase of the manager allows. -/
lemma handle_permits (m : Manager) (choices : Choices) (moment : Moment) (c : ManagerCommand) :
    ∀ effect ∈ (m.handle choices moment c).2, m.Permits effect := by
  cases c with
  | connect remote direction => exact m.connect_permits choices remote direction
  | notice peer n => exact m.onNotice_permits choices moment peer n
  | relay inventory => exact m.announce_permits inventory none
  | broadcast message => exact List.forall_mem_map.mpr fun _ _ => permits_of_routine rfl rfl rfl
  | tick =>
    rw [handle]
    split
    · next hrunning => exact discover_permits hrunning choices
    · exact List.forall_mem_nil _
  | shutdown caller =>
    rw [handle, beginShutdown]
    split
    · next hphase =>
      have hrunning : m.isRunning = true := by
        rw [isRunning, hphase]
        rfl
      exact List.forall_mem_map.mpr fun _ _ => permits_of_isRunning hrunning rfl
    · exact List.forall_mem_nil _
    · exact List.forall_mem_nil _
  | addPeers | inspect | dialFinished | rejectionFinished => exact List.forall_mem_nil _

/-- Handling a command answers no caller. -/
lemma answered_handle (m : Manager) (choices : Choices) (moment : Moment) (c : ManagerCommand) :
    (m.handle choices moment c).2.filterMap ManagerEffect.answered? = [] :=
  List.filterMap_eq_nil_iff.mpr fun effect heffect =>
    (m.handle_permits choices moment c effect heffect).unanswered

/-- A manager that is closing stops with the command after which no connection is left, and answers
the callers that have gathered; after any other command it goes on. -/
lemma step_of_closing (hlive : m.isStopped = false)
    (hphase : (m.handle choices moment c).1.phase = .closing callers) :
    m.step choices moment c =
      if (m.handle choices moment c).1.registry.ids = [] then
        ({ (m.handle choices moment c).1 with phase := .stopped },
          (m.handle choices moment c).2 ++ [.stopped callers])
      else m.handle choices moment c := by
  have hempty : (m.handle choices moment c).1.registry.size = 0 ↔
      (m.handle choices moment c).1.registry.ids = [] := by
    rw [Registry.size, Registry.ids, List.map_eq_nil_iff, List.length_eq_zero_iff]
  rw [step_of_live hlive, stopIfDone, hphase]
  dsimp only
  by_cases hvacant : (m.handle choices moment c).1.registry.ids = []
  · rw [if_pos hvacant, if_pos (hempty.mpr hvacant)]
  · rw [if_neg hvacant, if_neg fun hsize => hvacant (hempty.mp hsize), List.append_nil]

/-- What abstains does not start a manager again. -/
lemma Abstains.isRunning_eq_false {r : Manager × List ManagerEffect} (h : m.Abstains r)
    (hlate : m.isRunning = false) : r.1.isRunning = false :=
  Bool.eq_false_iff.mpr fun hrunning =>
    absurd (h.running hrunning) (Bool.eq_false_iff.mp hlate)

/-- A manager that does not run any more, or is asked to stop now, does not run when it has handled
the command, and no connection is added. -/
lemma handle_of_late (hlate : m.isRunning = false ∨ ∃ caller, c = .shutdown caller)
    (choices : Choices) (moment : Moment) :
    (m.handle choices moment c).1.isRunning = false ∧
      (m.handle choices moment c).1.registry.ids.Sublist m.registry.ids := by
  rcases hlate with hlate | ⟨caller, rfl⟩
  · by_cases hconnect : ∃ remote direction, c = .connect remote direction
    · obtain ⟨remote, direction, rfl⟩ := hconnect
      rw [handle, connect, hlate]
      exact ⟨hlate, .refl _⟩
    · by_cases hfinished : c = .rejectionFinished
      · rw [hfinished]
        exact ⟨hlate, .refl _⟩
      · have habstains := m.handle_abstains choices moment
          (fun remote direction heq => hconnect ⟨remote, direction, heq⟩) hfinished
        exact ⟨habstains.isRunning_eq_false hlate, habstains.shrinks.ids_sublist⟩
  · exact ⟨m.isRunning_beginShutdown caller,
      (m.beginShutdown_abstains caller).shrinks.ids_sublist⟩

/-- Nor is it different after the whole step. -/
lemma step_of_late (hlate : m.isRunning = false ∨ ∃ caller, c = .shutdown caller)
    (choices : Choices) (moment : Moment) :
    (m.step choices moment c).1.isRunning = false ∧
      (m.step choices moment c).1.registry.ids.Sublist m.registry.ids := by
  cases hlive : m.isStopped with
  | true =>
    rw [step_of_stopped hlive]
    refine ⟨Bool.eq_false_iff.mpr fun hrunning => ?_, .refl _⟩
    exact Bool.noConfusion ((isStopped_of_isRunning hrunning).symm.trans hlive)
  | false =>
    obtain ⟨hend, hsublist⟩ := handle_of_late hlate choices moment
    obtain ⟨habstains, hregistry⟩ := stopIfDone_spec (m.handle choices moment c).1
    rw [step_of_live hlive]
    dsimp only
    rw [hregistry]
    exact ⟨habstains.isRunning_eq_false hend, hsublist⟩

/-! ## Commands one after the other -/

/-- A manager after more commands. -/
def thereafter (m : Manager) (commands : List (Choices × Moment × ManagerCommand)) : Manager :=
  commands.foldl (fun m (choices, moment, c) => (m.step choices moment c).1) m

/-- What a manager wants done over more commands. -/
def effectsOver (m : Manager) : List (Choices × Moment × ManagerCommand) → List ManagerEffect
  | [] => []
  | (choices, moment, c) :: rest =>
    (m.step choices moment c).2 ++ (m.step choices moment c).1.effectsOver rest

/-- Of the callers in more commands those whose command a manager takes before it has stopped. -/
def callersOver (m : Manager) : List (Choices × Moment × ManagerCommand) → List Nat
  | [] => []
  | (choices, moment, c) :: rest =>
    if m.isStopped then []
    else c.caller?.toList ++ (m.step choices moment c).1.callersOver rest

variable {commands : List (Choices × Moment × ManagerCommand)}

lemma thereafter_cons (m : Manager) (choices : Choices) (moment : Moment) (c : ManagerCommand)
    (commands : List (Choices × Moment × ManagerCommand)) :
    m.thereafter ((choices, moment, c) :: commands) =
      (m.step choices moment c).1.thereafter commands := rfl

lemma thereafter_append (m : Manager)
    (commands later : List (Choices × Moment × ManagerCommand)) :
    m.thereafter (commands ++ later) = (m.thereafter commands).thereafter later :=
  List.foldl_append

/-- A manager that has stopped is done. -/
lemma thereafter_of_isStopped (hstopped : m.isStopped = true)
    (commands : List (Choices × Moment × ManagerCommand)) :
    m.thereafter commands = m ∧ m.effectsOver commands = [] ∧ m.callersOver commands = [] := by
  induction commands with
  | nil => exact ⟨rfl, rfl, rfl⟩
  | cons x rest ih =>
    obtain ⟨choices, moment, c⟩ := x
    have hstep := step_of_stopped hstopped choices moment c
    refine ⟨?_, ?_, ?_⟩
    · rw [thereafter_cons, hstep]
      exact ih.1
    · rw [effectsOver, hstep]
      exact ih.2.1
    · rw [callersOver, if_pos hstopped]

/-- A manager that does not run never runs again, and its connections become fewer. -/
lemma thereafter_of_not_isRunning (hlate : m.isRunning = false)
    (commands : List (Choices × Moment × ManagerCommand)) :
    (m.thereafter commands).isRunning = false ∧
      (m.thereafter commands).registry.ids.Sublist m.registry.ids := by
  induction commands generalizing m with
  | nil => exact ⟨hlate, .refl _⟩
  | cons x rest ih =>
    obtain ⟨choices, moment, c⟩ := x
    obtain ⟨hlate', hsublist⟩ := step_of_late (.inl hlate) choices moment (c := c)
    obtain ⟨hend, hrest⟩ := ih hlate'
    exact ⟨hend, hrest.trans hsublist⟩

/-- Before anybody asks the node to stop it runs, and nobody is answered. -/
lemma thereafter_of_isRunning (hrunning : m.isRunning = true)
    (hcommands : ∀ x ∈ commands, x.2.2.caller? = none) :
    (m.thereafter commands).isRunning = true ∧
      (m.effectsOver commands).filterMap ManagerEffect.answered? = [] := by
  induction commands generalizing m with
  | nil => exact ⟨hrunning, rfl⟩
  | cons x rest ih =>
    obtain ⟨choices, moment, c⟩ := x
    obtain ⟨hc, hrest⟩ := List.forall_mem_cons.mp hcommands
    have hstill : (m.handle choices moment c).1.isRunning = true := by
      rw [isRunning, m.phase_handle choices moment hc]
      exact hrunning
    have hstep : m.step choices moment c = m.handle choices moment c := by
      rw [step_of_live (isStopped_of_isRunning hrunning), stopIfDone_of_isRunning hstill,
        List.append_nil]
    obtain ⟨hend, hnone⟩ := ih hstill hrest
    rw [thereafter_cons, effectsOver, hstep, List.filterMap_append, answered_handle]
    exact ⟨hend, hnone⟩

/-! ## Closing -/

/-- The manager waits until its connections are gone, and some callers wait for it. -/
structure Closing (m : Manager) (callers : List Nat) : Prop where
  phase_eq : m.phase = .closing callers
  occupied : m.registry.ids ≠ []

/-- A manager that waits for its connections to go neither runs nor has stopped. -/
lemma Closing.spec (h : m.Closing callers) : m.isStopped = false ∧ m.isRunning = false := by
  rw [isStopped, isRunning, h.phase_eq]
  exact ⟨rfl, rfl⟩

/-- What becomes of a manager that is to stop, over commands at which some callers wait already: it
opens nothing, tells `leaving` to leave, has stopped if no connection is left, and then has answered
all callers up to then. -/
structure Concludes (m : Manager) (commands : List (Choices × Moment × ManagerCommand))
    (callers : List Nat) (leaving : List PeerId) : Prop where
  closed : ∀ effect ∈ m.effectsOver commands, effect.isOpening = false
  farewells : (m.effectsOver commands).filterMap ManagerEffect.farewell? = leaving
  stopped_iff : (m.thereafter commands).isStopped = true ↔
    (m.thereafter commands).registry.ids = []
  answered : (m.effectsOver commands).filterMap ManagerEffect.answered? =
    if (m.thereafter commands).isStopped then [callers ++ m.callersOver commands] else []

/-- With a command after which the manager is closing it either stops at once or goes on. -/
lemma Concludes.cons {leaving : List PeerId} (hlive : m.isStopped = false)
    (hphase : (m.handle choices moment c).1.phase = .closing (callers ++ c.caller?.toList))
    (hclosed : ∀ effect ∈ (m.handle choices moment c).2, effect.isOpening = false)
    (hleaving : (m.handle choices moment c).2.filterMap ManagerEffect.farewell? = leaving)
    (hrest : (m.handle choices moment c).1.Closing (callers ++ c.caller?.toList) →
      (m.handle choices moment c).1.Concludes commands (callers ++ c.caller?.toList) []) :
    m.Concludes ((choices, moment, c) :: commands) callers leaving := by
  have hstep := step_of_closing hlive hphase
  have hnone := m.answered_handle choices moment c
  have hcallers : m.callersOver ((choices, moment, c) :: commands) =
      c.caller?.toList ++ (m.step choices moment c).1.callersOver commands := by
    rw [callersOver, if_neg (Bool.eq_false_iff.mp hlive)]
  by_cases hvacant : (m.handle choices moment c).1.registry.ids = []
  · -- The last connection is gone, and the manager stops.
    rw [if_pos hvacant] at hstep
    obtain ⟨hend, heffects, hlater⟩ :=
      thereafter_of_isStopped (m := (m.step choices moment c).1) (by rw [hstep]; rfl) commands
    have hover : m.effectsOver ((choices, moment, c) :: commands) =
        (m.handle choices moment c).2 ++ [.stopped (callers ++ c.caller?.toList)] := by
      rw [effectsOver, heffects, List.append_nil, hstep]
    have hlast : m.thereafter ((choices, moment, c) :: commands) =
        { (m.handle choices moment c).1 with phase := .stopped } := by
      rw [thereafter_cons, hend, hstep]
    refine ⟨?_, ?_, ?_, ?_⟩
    · rw [hover]
      exact List.forall_mem_append.mpr ⟨hclosed, List.forall_mem_singleton.mpr rfl⟩
    · rw [hover, List.filterMap_append, hleaving]
      exact List.append_nil _
    · rw [hlast]
      exact iff_of_true rfl hvacant
    · rw [hover, hlast, hcallers, hlater, List.append_nil, List.filterMap_append, hnone]
      rfl
  · rw [if_neg hvacant] at hstep
    have hconcludes := hrest ⟨hphase, hvacant⟩
    have hover : m.effectsOver ((choices, moment, c) :: commands) =
        (m.handle choices moment c).2 ++
          (m.handle choices moment c).1.effectsOver commands := by
      rw [effectsOver, hstep]
    have hlast : m.thereafter ((choices, moment, c) :: commands) =
        (m.handle choices moment c).1.thereafter commands := by
      rw [thereafter_cons, hstep]
    refine ⟨?_, ?_, ?_, ?_⟩
    · rw [hover]
      exact List.forall_mem_append.mpr ⟨hclosed, hconcludes.closed⟩
    · rw [hover, List.filterMap_append, hleaving, hconcludes.farewells, List.append_nil]
    · rw [hlast]
      exact hconcludes.stopped_iff
    · rw [hover, hlast, hcallers, hstep, List.filterMap_append, hnone, List.nil_append,
        hconcludes.answered, List.append_assoc]

/-- A manager that is closing tells nobody more to leave. -/
lemma Closing.concludes (h : m.Closing callers)
    (commands : List (Choices × Moment × ManagerCommand)) :
    m.Concludes commands callers [] := by
  induction commands generalizing m callers with
  | nil =>
    obtain ⟨hlive, -⟩ := h.spec
    refine ⟨List.forall_mem_nil _, rfl, ?_, ?_⟩
    · exact iff_of_false (Bool.eq_false_iff.mp hlive) h.occupied
    · change [] = if m.isStopped = true then _ else []
      rw [if_neg (Bool.eq_false_iff.mp hlive)]
  | cons x rest ih =>
    obtain ⟨choices, moment, c⟩ := x
    obtain ⟨hlive, hlate⟩ := h.spec
    have hpermits := m.handle_permits choices moment c
    refine .cons hlive (phase_handle_of_closing h.phase_eq choices moment c) ?_ ?_ ih
    · exact fun effect heffect => (hpermits effect heffect).closed hlate
    · exact List.filterMap_eq_nil_iff.mpr fun effect heffect =>
        (hpermits effect heffect).settled hlate

/-- The first who asks the node to stop has all connections told to leave. -/
lemma concludes_of_isRunning (hrunning : m.isRunning = true) (choices : Choices) (moment : Moment)
    (caller : Nat) (commands : List (Choices × Moment × ManagerCommand)) :
    m.Concludes ((choices, moment, .shutdown caller) :: commands) [] m.registry.ids := by
  have hhandle : m.handle choices moment (.shutdown caller) =
      ({ m with phase := .closing [caller] },
        m.registry.peers.map fun p => .command p.1 (.disconnect .shutdown)) := by
    rw [handle, beginShutdown, eq_of_beq hrunning]
  refine .cons (isStopped_of_isRunning hrunning) ?_ ?_ ?_ fun h => h.concludes commands
  · rw [hhandle]
    rfl
  · rw [hhandle]
    exact List.forall_mem_map.mpr fun _ _ => rfl
  · rw [hhandle, List.filterMap_map, Registry.ids, ← List.filterMap_eq_map]
    rfl

/-- However many commands come before the first request to stop: up to it the manager runs, and
nobody is answered.  From it on, whatever commands follow, no stream becomes a connection or gets a
notice, and no attempt begins; the connections that are live at the first request are told to leave,
each of them once, and nobody else is; and no command adds a connection.  The manager has stopped if
and only if no connection is left, and as long as it has not, nobody is answered; when it stops, all
whose request it took are answered at once, and nobody afterwards. -/
theorem shutdown_orderly (settings : Settings)
    (before : List (Choices × Moment × ManagerCommand))
    (hbefore : ∀ x ∈ before, ∀ caller, x.2.2 ≠ .shutdown caller) (choices : Choices)
    (moment : Moment) (caller : Nat) (later : List (Choices × Moment × ManagerCommand)) :
    let m := after settings before
    let commands := (choices, moment, .shutdown caller) :: later
    let left := m.thereafter commands
    (m.isRunning = true ∧
      ∀ callers, .stopped callers ∉ (start settings).effectsOver before) ∧
    (∀ effect ∈ m.effectsOver commands, (∀ peer, effect ≠ .accepted peer) ∧
      (∀ d, effect ≠ .rejected (some d)) ∧ ∀ endpoint, effect ≠ .dial endpoint) ∧
    (m.registry.ids.Nodup ∧
      (m.effectsOver commands).filterMap ManagerEffect.farewell? = m.registry.ids) ∧
    (left.registry.ids.Sublist m.registry.ids ∧
      ∀ next, (m.thereafter (commands ++ next)).registry.ids.Sublist left.registry.ids) ∧
    (left.isStopped = true ↔ left.registry.ids = []) ∧
    (m.effectsOver commands).filterMap ManagerEffect.answered? =
      if left.isStopped then [m.callersOver commands] else [] := by
  intro m commands left
  have hquiet : ∀ x ∈ before, x.2.2.caller? = none := by
    intro x hx
    exact ManagerCommand.caller?_eq_none (hbefore x hx)
  obtain ⟨hrunning, hnone⟩ :=
    thereafter_of_isRunning (m := start settings) rfl hquiet
  have hconcludes : m.Concludes commands [] m.registry.ids :=
    concludes_of_isRunning hrunning choices moment caller later
  have hconsistent := (discerning_after settings before).consistent
  obtain ⟨hlate, hfirst⟩ :=
    step_of_late (m := m) (.inr ⟨caller, rfl⟩) choices moment (c := .shutdown caller)
  obtain ⟨hclosing, hrest⟩ := thereafter_of_not_isRunning hlate later
  refine ⟨⟨hrunning, ?_⟩, ?_, ⟨hconsistent.nodup_ids, hconcludes.farewells⟩, ⟨?_, ?_⟩,
    hconcludes.stopped_iff, hconcludes.answered⟩
  · intro callers hcallers
    have hanswered := List.filterMap_eq_nil_iff.mp hnone _ hcallers
    exact Option.noConfusion rfl (heq_of_eq hanswered)
  · intro effect heffect
    have hclosed := hconcludes.closed effect heffect
    refine ⟨?_, ?_, ?_⟩
    · rintro peer rfl
      exact Bool.noConfusion hclosed
    · rintro d rfl
      exact Bool.noConfusion hclosed
    · rintro endpoint rfl
      exact Bool.noConfusion hclosed
  · exact hrest.trans hfirst
  · intro next
    rw [thereafter_append]
    exact (thereafter_of_not_isRunning hclosing next).2

/-- One connection, and three who ask the node to stop: the connection is told once to leave, and
when it is gone the two who have asked by then are answered. -/
theorem shutdown_orderly_of_three_callers :
    ∃ (before later : List (Choices × Moment × ManagerCommand)),
      let m := after (.standard (.ofMagic 7 1)) before
      let commands := (.first, ⟨0, 0⟩, .shutdown 5) :: later
      (m.effectsOver commands).filterMap ManagerEffect.farewell? = [⟨1⟩] ∧
      (m.thereafter commands).isStopped = true ∧
      (m.effectsOver commands).filterMap ManagerEffect.answered? = [[5, 6]] := by
  let settings : Settings := .standard (.ofMagic 7 1)
  let remote : Endpoint := ⟨default, 1⟩
  let registry : Registry :=
    ⟨[(⟨1⟩, .ofRemote remote .inbound)], (∅ : Std.HashMap Ip Nat).insert default 1, 1⟩
  let now : Moment := ⟨0, 0⟩
  let before : List (Choices × Moment × ManagerCommand) := [(.first, now, .connect remote .inbound)]
  let later : List (Choices × Moment × ManagerCommand) :=
    [(.first, now, .connect remote .inbound), (.first, now, .shutdown 6),
      (.first, now, .notice ⟨1⟩ .disconnected), (.first, now, .shutdown 7)]
  have hafter : after settings before = { start settings with registry } := by
    have hplain : (default : Ip).normal = default := by decide +kernel
    have hregistered : Registry.empty.register remote .inbound 40 3 = .ok (registry, ⟨1⟩) := by
      simp [Registry.register, Registry.empty, Registry.size, Registry.connectionsFrom, remote,
        registry, hplain]
    have hstep : (start settings).step .first now (.connect remote .inbound) =
        ({ start settings with registry }, [.accepted ⟨1⟩]) := by
      rw [step_connect_of_isRunning rfl, connect_of_ok rfl hregistered]
    simp only [after, before, List.foldl_cons, List.foldl_nil, hstep]
  have hbefore : ∀ x ∈ before, ∀ caller, x.2.2 ≠ .shutdown caller :=
    List.forall_mem_singleton.mpr fun _ => ManagerCommand.noConfusion
  obtain ⟨-, -, ⟨-, hfarewells⟩, -, hstopped, hanswered⟩ :=
    shutdown_orderly settings before hbefore .first now 5 later
  have hids : (after settings before).registry.ids = [⟨1⟩] := by
    rw [hafter]
    rfl
  have hgone : ((after settings before).thereafter
      ((.first, now, .shutdown 5) :: later)).registry.ids = [] := by
    rw [hafter]
    decide +kernel
  have hcallers : (after settings before).callersOver
      ((.first, now, .shutdown 5) :: later) = [5, 6] := by
    rw [hafter]
    decide +kernel
  have hend := hstopped.mpr hgone
  rw [if_pos hend, hcallers] at hanswered
  exact ⟨before, later, hfarewells.trans hids, hend, hanswered⟩

end Manager

end PeerNet
