import PeerNet.Proofs.Manager.Locality
import PeerNet.Proofs.Manager.Presence

/-!
# Heights

A session tells the manager that its peer may stay, then that it is ready, then now and then which
height the peer reported (`Manager.progress`).  If it keeps to this order (`InOrder`), the height
that the manager keeps of the peer is the greatest so far (`Manager.Follows`), and the node is told
of each height that is greater than all before it, and of no other
(`Manager.AtRest.follows_step`).  What comes in between, from this peer or from others, does not
matter.
-/

namespace PeerNet

/-- The height that a notice reports. -/
def PeerNotice.height? : PeerNotice → Option UInt32
  | .remoteHeight height => some height
  | _ => none

/-- Whether a notice marks how far its session has come.  An introduction does if the peer may stay.
-/
def PeerNotice.isProgress (consented : Bool) : PeerNotice → Bool
  | .introduced _ => consented
  | .ready | .remoteHeight _ => true
  | _ => false

/-- Whether an effect lets a peer stay. -/
def ManagerEffect.isConsent : ManagerEffect → Bool
  | .answer _ (.verdict (.ok _)) => true
  | _ => false

/-- The height of a peer that the node is told of. -/
def ManagerEffect.heightOf? (peer : PeerId) : ManagerEffect → Option UInt32
  | .report id (.heightUpdated height) => if id = peer then some height else none
  | _ => none

/-- The order of a session: the peer may stay, it is ready, it reports heights. -/
def InOrder (version : Version) (heights : List UInt32) (told : List PeerNotice) : Prop :=
  told <+: .introduced version :: .ready :: heights.map .remoteHeight

/-- The greatest of the height that a peer begins with and all that it reported. -/
def greatestHeight (version : Version) (told : List PeerNotice) : UInt32 :=
  (told.filterMap PeerNotice.height?).foldl max version.startHeight

variable {version : Version} {heights : List UInt32} {told more : List PeerNotice} {n : PeerNotice}

/-! ## The order of a session -/

/-- The beginning of what a session tells in order is in order. -/
lemma InOrder.of_append (h : InOrder version heights (told ++ more)) :
    InOrder version heights told :=
  (List.prefix_append told more).trans h

/-- What comes next in a session. -/
lemma InOrder.next (h : InOrder version heights (told ++ [n])) :
    (told = [] ∧ n = .introduced version) ∨ (told = [.introduced version] ∧ n = .ready) ∨
      (.ready ∈ told ∧ ∃ height, n = .remoteHeight height) := by
  unfold InOrder at h
  cases told with
  | nil => exact .inl ⟨rfl, (List.cons_prefix_cons.mp h).1⟩
  | cons first rest =>
    obtain ⟨rfl, hrest⟩ := List.cons_prefix_cons.mp h
    cases rest with
    | nil => exact .inr (.inl ⟨rfl, (List.cons_prefix_cons.mp hrest).1⟩)
    | cons second rest =>
      obtain ⟨rfl, hheights⟩ := List.cons_prefix_cons.mp hrest
      have hmem := hheights.subset (List.mem_append_right rest (List.mem_singleton.mpr rfl))
      obtain ⟨height, -, rfl⟩ := List.mem_map.mp hmem
      exact .inr (.inr ⟨List.mem_cons_of_mem _ List.mem_cons_self, height, rfl⟩)

lemma greatestHeight_append (version : Version) (told more : List PeerNotice) :
    greatestHeight version (told ++ more) =
      (more.filterMap PeerNotice.height?).foldl max (greatestHeight version told) := by
  rw [greatestHeight, List.filterMap_append, List.foldl_append]
  rfl

/-- A maximum is no less than where it starts. -/
lemma le_foldl_max (height : UInt32) (heights : List UInt32) :
    height ≤ heights.foldl max height := by
  induction heights generalizing height with
  | nil => exact UInt32.le_refl height
  | cons first rest ih =>
    refine UInt32.le_trans ?_ (ih (max height first))
    change height ≤ if height ≤ first then first else height
    split_ifs with h
    · exact h
    · exact UInt32.le_refl height

/-- Whatever else is told, the greatest height does not fall. -/
lemma greatestHeight_le_append (version : Version) (told more : List PeerNotice) :
    greatestHeight version told ≤ greatestHeight version (told ++ more) := by
  rw [greatestHeight_append]
  exact le_foldl_max _ _

/-- What tells of no height leaves the greatest one. -/
lemma greatestHeight_snoc_of_height?_eq_none (hn : n.height? = none) (version : Version)
    (told : List PeerNotice) :
    greatestHeight version (told ++ [n]) = greatestHeight version told := by
  rw [greatestHeight_append]
  simp [hn]

/-- A height changes the greatest one if it is greater. -/
lemma greatestHeight_snoc (version : Version) (told : List PeerNotice) (height : UInt32) :
    greatestHeight version (told ++ [.remoteHeight height]) =
      if greatestHeight version told < height then height else greatestHeight version told := by
  rw [greatestHeight_append]
  generalize greatestHeight version told = greatest
  change (if greatest ≤ height then height else greatest) = _
  split_ifs with hle hlt hlt
  · rfl
  · exact UInt32.le_antisymm (UInt32.not_lt.mp hlt) hle
  · exact absurd (UInt32.le_of_lt hlt) hle
  · rfl

namespace Manager

variable {m : Manager} {choices : Choices} {moment : Moment} {peer : PeerId} {c : ManagerCommand}
  {settings : Settings}

/-- What a command tells of the progress of a session: nothing, if its peer is not live. -/
def progress (m : Manager) (peer : PeerId) (choices : Choices) (moment : Moment) :
    ManagerCommand → List PeerNotice
  | .notice id n =>
    let consented := (m.step choices moment (.notice id n)).2.any ManagerEffect.isConsent
    if id = peer ∧ peer ∈ m.registry.ids ∧ n.isProgress consented then [n] else []
  | _ => []

/-- What commands tell of the progress of a session. -/
def progressOver (m : Manager) (peer : PeerId) :
    List (Choices × Moment × ManagerCommand) → List PeerNotice
  | [] => []
  | (choices, moment, c) :: rest =>
    m.progress peer choices moment c ++ (m.step choices moment c).1.progressOver peer rest

/-- A command is progress of a peer if it is a notice of its own session, and it is live. -/
lemma progress_eq_or (m : Manager) (peer : PeerId) (choices : Choices) (moment : Moment)
    (c : ManagerCommand) :
    m.progress peer choices moment c = [] ∨
      ∃ n, c = .notice peer n ∧ peer ∈ m.registry.ids ∧ m.progress peer choices moment c = [n] ∧
        n.isProgress ((m.step choices moment (.notice peer n)).2.any ManagerEffect.isConsent) =
          true := by
  cases c with
  | notice id n =>
    by_cases hprogress : id = peer ∧ peer ∈ m.registry.ids ∧
        n.isProgress ((m.step choices moment (.notice id n)).2.any ManagerEffect.isConsent) = true
    · obtain ⟨rfl, hlive, hmarks⟩ := hprogress
      exact .inr ⟨n, rfl, hlive, if_pos ⟨rfl, hlive, hmarks⟩, hmarks⟩
    · exact .inl (if_neg hprogress)
  | connect | addPeers | relay | broadcast | inspect | tick | dialFinished | rejectionFinished
  | shutdown => exact .inl rfl

/-! ## What the node is told -/

/-- No height of a peer is reported but when its session tells one. -/
lemma onNotice_heightOf?_eq_none (m : Manager) (choices : Choices) (moment : Moment) {id : PeerId}
    (hn : ∀ height, id = peer → n ≠ .remoteHeight height) :
    ∀ effect ∈ (m.onNotice choices moment id n).2, effect.heightOf? peer = none := by
  cases n with
  | introduced | addressRequest => exact List.forall_mem_singleton.mpr rfl
  | ready | filterChanged | suggested | disconnected => exact List.forall_mem_nil _
  | remoteHeight height =>
    have hother : id ≠ peer := fun heq => hn height heq rfl
    rw [onNotice, raiseHeight]
    split
    · exact List.forall_mem_nil _
    · split
      · exact List.forall_mem_singleton.mpr (if_neg hother)
      · exact List.forall_mem_nil _
  | delivered inventory =>
    exact List.forall_mem_cons.mpr ⟨rfl, List.forall_mem_map.mpr fun _ _ => rfl⟩

/-- Only a height of a peer has the node told of one. -/
lemma handle_heightOf?_eq_none (m : Manager) (choices : Choices) (moment : Moment)
    (hc : ∀ height, c ≠ .notice peer (.remoteHeight height)) :
    ∀ effect ∈ (m.handle choices moment c).2, effect.heightOf? peer = none := by
  cases c with
  | connect remote direction =>
    have hanswers := m.answers_connect choices remote direction
    rw [handle]
    generalize m.connect choices remote direction = r at hanswers
    cases hanswers <;> exact List.forall_mem_singleton.mpr rfl
  | notice id n =>
    refine m.onNotice_heightOf?_eq_none choices moment ?_
    rintro height rfl rfl
    exact hc height rfl
  | relay | broadcast => exact List.forall_mem_map.mpr fun _ _ => rfl
  | tick =>
    rw [handle]
    split
    · unfold discover
      dsimp only
      split
      · exact List.forall_mem_nil _
      · split
        · exact List.forall_mem_map.mpr fun _ _ => rfl
        · split <;> exact List.forall_mem_map.mpr fun _ _ => rfl
    · exact List.forall_mem_nil _
  | shutdown caller =>
    rw [handle, beginShutdown]
    split
    · exact List.forall_mem_map.mpr fun _ _ => rfl
    · exact List.forall_mem_nil _
    · exact List.forall_mem_nil _
  | addPeers | inspect | dialFinished | rejectionFinished => exact List.forall_mem_nil _

/-- Stopping tells the node of no height. -/
lemma heightsOf_step_of_live (hlive : m.isStopped = false) (peer : PeerId) (choices : Choices)
    (moment : Moment) (c : ManagerCommand) :
    (m.step choices moment c).2.filterMap (ManagerEffect.heightOf? peer) =
      (m.handle choices moment c).2.filterMap (ManagerEffect.heightOf? peer) := by
  rw [step_of_live hlive]
  dsimp only
  rw [List.filterMap_append]
  refine List.append_right_eq_self.mpr (List.filterMap_eq_nil_iff.mpr ?_)
  intro effect heffect
  obtain ⟨callers, rfl⟩ := (stopIfDone_eq _).2.2 effect heffect
  rfl

/-- Stopping changes no connection, and has no peer stay. -/
lemma step_notice_of_live (hlive : m.isStopped = false) (choices : Choices) (moment : Moment)
    (peer : PeerId) (n : PeerNotice) :
    (m.step choices moment (.notice peer n)).1.registry =
        (m.onNotice choices moment peer n).1.registry ∧
      (m.step choices moment (.notice peer n)).2.any ManagerEffect.isConsent =
        (m.onNotice choices moment peer n).2.any ManagerEffect.isConsent := by
  rw [step_of_live hlive]
  obtain ⟨hregistry, -, hstopped⟩ := stopIfDone_eq (m.handle choices moment (.notice peer n)).1
  have hnone : (m.handle choices moment (.notice peer n)).1.stopIfDone.2.any
      ManagerEffect.isConsent = false := by
    refine List.any_eq_false.mpr fun effect heffect => ?_
    obtain ⟨callers, rfl⟩ := hstopped effect heffect
    exact Bool.false_ne_true
  refine ⟨hregistry, ?_⟩
  dsimp only
  rw [List.any_append, hnone, Bool.or_false]
  rfl

/-! ## Commands without progress -/

/-- What is no progress of a peer reports no height of it. -/
lemma heightsOf_of_progress_eq_nil (hquiet : m.progress peer choices moment c = []) :
    (m.step choices moment c).2.filterMap (ManagerEffect.heightOf? peer) = [] := by
  cases hlive : m.isStopped with
  | true =>
    rw [step_of_stopped hlive]
    rfl
  | false =>
    rw [heightsOf_step_of_live hlive]
    by_cases hc : ∃ height, c = .notice peer (.remoteHeight height)
    · obtain ⟨height, rfl⟩ := hc
      have hgone : peer ∉ m.registry.ids := by
        intro hmem
        rw [progress, if_pos ⟨rfl, hmem, rfl⟩] at hquiet
        exact List.cons_ne_nil _ _ hquiet
      rw [handle, onNotice, raiseHeight, Registry.get?_eq_none_iff.mpr hgone]
      rfl
    · exact List.filterMap_eq_nil_iff.mpr
        (m.handle_heightOf?_eq_none choices moment fun height heq => hc ⟨height, heq⟩)

/-- A notice that is no progress leaves the version and the height of its peer alone. -/
lemma onNotice_keeps_of_not_isProgress
    (hn : n.isProgress ((m.onNotice choices moment peer n).2.any ManagerEffect.isConsent) = false)
    {e' : PeerEntry} (hmem : (peer, e') ∈ (m.onNotice choices moment peer n).1.registry.peers) :
    ∃ e, (peer, e) ∈ m.registry.peers ∧ e'.version = e.version ∧
      e'.lastBlockIndex = e.lastBlockIndex := by
  cases n with
  | introduced version =>
    have hjudges := m.judges_allow peer version moment.now
    unfold onNotice at hn hmem
    dsimp only at hn hmem
    generalize m.allow peer version moment.now = judged at hjudges hn hmem
    cases hjudges with
    | refused => exact ⟨e', hmem, rfl, rfl⟩
    | accepted => exact Bool.noConfusion hn
  | filterChanged filter =>
    obtain ⟨e, he, rfl⟩ := Registry.exists_of_mem_modify_self hmem
    exact ⟨e, he, rfl, rfl⟩
  | disconnected => exact ⟨e', Registry.mem_of_mem_remove hmem, rfl, rfl⟩
  | suggested | delivered | addressRequest => exact ⟨e', hmem, rfl, rfl⟩
  | ready | remoteHeight => exact Bool.noConfusion hn

/-- A command that tells nothing of the progress of a session leaves the version and the height of
its peer alone, if it is not the one by which the peer became a connection. -/
lemma AtRest.keeps_of_progress_eq_nil (h : m.AtRest settings)
    (hquiet : m.progress peer choices moment c = []) (hissued : peer.number ≤ m.registry.lastId)
    {e' : PeerEntry} (hmem : (peer, e') ∈ (m.step choices moment c).1.registry.peers) :
    ∃ e, (peer, e) ∈ m.registry.peers ∧ e'.version = e.version ∧
      e'.lastBlockIndex = e.lastBlockIndex := by
  -- A number is not given out again, so who is live now was live before.
  have hlive : peer ∈ m.registry.ids := by
    by_contra hgone
    exact h.notMem_ids_step hissued hgone choices moment c (List.mem_map.mpr ⟨_, hmem, rfl⟩)
  by_cases hc : ∃ n, c = .notice peer n
  · obtain ⟨n, rfl⟩ := hc
    cases hstopped : m.isStopped with
    | true =>
      rw [step_of_stopped hstopped] at hmem
      exact ⟨e', hmem, rfl, rfl⟩
    | false =>
      obtain ⟨hregistry, hconsented⟩ := step_notice_of_live hstopped choices moment peer n
      rw [hregistry] at hmem
      refine onNotice_keeps_of_not_isProgress ?_ hmem
      rw [← hconsented, ← Bool.not_eq_true]
      intro hmarks
      rw [progress, if_pos ⟨rfl, hlive, hmarks⟩] at hquiet
      exact List.cons_ne_nil _ _ hquiet
  · have hother : ∀ n, c ≠ .notice peer n := fun n heq => hc ⟨n, heq⟩
    have hsame := h.mem_of_mem_step hother choices moment hmem
    exact ⟨e', hsame.resolve_right (Nat.not_lt.mpr hissued), rfl, rfl⟩

/-! ## Progress -/

/-- What the manager has of a peer whose session has told so much. -/
structure Follows (m : Manager) (peer : PeerId) (version : Version) (told : List PeerNotice) :
    Prop where
  issued : told ≠ [] → peer.number ≤ m.registry.lastId
  known : ∀ e, (peer, e) ∈ m.registry.peers → .introduced version ∈ told →
    e.version = some version
  greatest : ∀ e, (peer, e) ∈ m.registry.peers → .ready ∈ told →
    e.lastBlockIndex = greatestHeight version told

/-- Before a session has told anything, there is nothing that the manager must have of its peer. -/
lemma follows_nil (m : Manager) (peer : PeerId) (version : Version) : m.Follows peer version [] :=
  ⟨fun h => absurd rfl h, fun _ _ h => absurd h List.not_mem_nil,
    fun _ _ h => absurd h List.not_mem_nil⟩

/-- Without progress everything stays as it was. -/
lemma AtRest.follows_step_of_progress_eq_nil (h : m.AtRest settings)
    (hfollows : m.Follows peer version told)
    (hquiet : m.progress peer choices moment c = []) :
    (m.step choices moment c).1.Follows peer version told := by
  have hlast := (step_revision h.discerning.consistent choices moment c).lastId_le
  have hkeeps : told ≠ [] → ∀ e', (peer, e') ∈ (m.step choices moment c).1.registry.peers →
      ∃ e, (peer, e) ∈ m.registry.peers ∧ e'.version = e.version ∧
        e'.lastBlockIndex = e.lastBlockIndex :=
    fun hn _ hmem => h.keeps_of_progress_eq_nil hquiet (hfollows.issued hn) hmem
  refine ⟨fun hn => (hfollows.issued hn).trans hlast, fun e' hmem htold => ?_,
    fun e' hmem htold => ?_⟩
  · obtain ⟨e, he, hversion, -⟩ := hkeeps (List.ne_nil_of_mem htold) e' hmem
    exact hversion.trans (hfollows.known e he htold)
  · obtain ⟨e, he, -, hheight⟩ := hkeeps (List.ne_nil_of_mem htold) e' hmem
    exact hheight.trans (hfollows.greatest e he htold)

/-- The peer may stay. -/
lemma AtRest.follows_introduced (h : m.AtRest settings) (hlive : peer ∈ m.registry.ids)
    (hconsented : (m.step choices moment (.notice peer (.introduced version))).2.any
      ManagerEffect.isConsent = true) :
    (m.step choices moment (.notice peer (.introduced version))).1.Follows peer version
      [.introduced version] := by
  have hissued := h.number_le_lastId_step hlive choices moment (.notice peer (.introduced version))
  obtain ⟨hregistry, hsame⟩ := step_notice_of_live (h.isStopped_of_live hlive) choices moment peer
    (.introduced version)
  rw [hsame] at hconsented
  refine ⟨fun _ => hissued, fun e hmem _ => ?_, fun _ _ htold => ?_⟩
  · rw [hregistry] at hmem
    have hjudges := m.judges_allow peer version moment.now
    unfold onNotice at hconsented hmem
    dsimp only at hconsented hmem
    generalize m.allow peer version moment.now = judged at hjudges hconsented hmem
    cases hjudges with
    | refused => exact Bool.noConfusion hconsented
    | accepted =>
      obtain ⟨before, -, rfl⟩ := Registry.exists_of_mem_modify_self hmem
      rfl
  · exact PeerNotice.noConfusion (List.mem_singleton.mp htold)

/-- The peer is ready: its height is the one that it begins with. -/
lemma AtRest.follows_ready (h : m.AtRest settings) (hlive : peer ∈ m.registry.ids)
    (hfollows : m.Follows peer version [.introduced version]) :
    (m.step choices moment (.notice peer .ready)).1.Follows peer version
      [.introduced version, .ready] := by
  have hissued := h.number_le_lastId_step hlive choices moment (.notice peer .ready)
  have hregistry := (step_notice_of_live (h.isStopped_of_live hlive) choices moment peer .ready).1
  have hgreeted : ∀ e, (peer, e) ∈ (m.step choices moment (.notice peer .ready)).1.registry.peers →
      e.version = some version ∧ e.lastBlockIndex = version.startHeight := by
    intro e hmem
    rw [hregistry] at hmem
    obtain ⟨before, hbefore, rfl⟩ := Registry.exists_of_mem_modify_self hmem
    have hknown := hfollows.known before hbefore List.mem_cons_self
    refine ⟨hknown, ?_⟩
    dsimp only
    rw [hknown]
    rfl
  exact ⟨fun _ => hissued, fun e hmem _ => (hgreeted e hmem).1, fun e hmem _ => (hgreeted e hmem).2⟩

/-- The height of a live peer is raised, and reported, if what was told is more. -/
lemma raiseHeight_of_get? {entry : PeerEntry} (hentry : m.registry.get? peer = some entry)
    (height : UInt32) :
    m.raiseHeight peer height =
      if entry.lastBlockIndex < height then
        ({ m with registry := m.registry.modify peer fun e => { e with lastBlockIndex := height } },
          [.report peer (.heightUpdated height)])
      else (m, []) := by
  rw [raiseHeight, hentry]

/-- A height counts if it is greater than all before, and then the node is told of it. -/
lemma AtRest.follows_height (h : m.AtRest settings) (hlive : peer ∈ m.registry.ids)
    (hfollows : m.Follows peer version told) (hready : .ready ∈ told) (height : UInt32) :
    (m.step choices moment (.notice peer (.remoteHeight height))).1.Follows peer version
        (told ++ [.remoteHeight height]) ∧
      (m.step choices moment (.notice peer (.remoteHeight height))).2.filterMap
          (ManagerEffect.heightOf? peer) =
        if greatestHeight version told < height then [height] else [] := by
  have hissued := h.number_le_lastId_step hlive choices moment (.notice peer (.remoteHeight height))
  have hstopped := h.isStopped_of_live hlive
  obtain ⟨entry, hentry⟩ := Option.ne_none_iff_exists'.mp fun hnone =>
    Registry.get?_eq_none_iff.mp hnone hlive
  have hheight := hfollows.greatest entry (Registry.mem_of_get? hentry) hready
  have hknown : ∀ e, (peer, e) ∈ m.registry.peers →
      .introduced version ∈ told ++ [.remoteHeight height] → e.version = some version := by
    intro e he htold
    refine hfollows.known e he ((List.mem_append.mp htold).resolve_right fun hnew => ?_)
    exact PeerNotice.noConfusion (List.mem_singleton.mp hnew)
  have hmax := greatestHeight_snoc version told height
  have hregistry : (m.step choices moment (.notice peer (.remoteHeight height))).1.registry =
      (m.raiseHeight peer height).1.registry :=
    (step_notice_of_live hstopped choices moment peer (.remoteHeight height)).1
  rw [heightsOf_step_of_live hstopped, handle, onNotice]
  by_cases hgreater : greatestHeight version told < height
  · have hraise : m.raiseHeight peer height =
        ({ m with registry := m.registry.modify peer fun e => { e with lastBlockIndex := height } },
          [.report peer (.heightUpdated height)]) := by
      rw [raiseHeight_of_get? hentry, hheight, if_pos hgreater]
    rw [if_pos hgreater] at hmax ⊢
    rw [hraise] at hregistry ⊢
    refine ⟨⟨fun _ => hissued, fun e hmem htold => ?_, fun e hmem _ => ?_⟩, ?_⟩
    · rw [hregistry] at hmem
      obtain ⟨before, hbefore, rfl⟩ := Registry.exists_of_mem_modify_self hmem
      exact hknown before hbefore htold
    · rw [hregistry] at hmem
      obtain ⟨before, -, rfl⟩ := Registry.exists_of_mem_modify_self hmem
      exact hmax.symm
    · exact List.filterMap_cons_some (if_pos rfl)
  · have hraise : m.raiseHeight peer height = (m, []) := by
      rw [raiseHeight_of_get? hentry, hheight, if_neg hgreater]
    rw [if_neg hgreater] at hmax ⊢
    rw [hraise] at hregistry ⊢
    refine ⟨⟨fun _ => hissued, fun e hmem htold => ?_, fun e hmem _ => ?_⟩, rfl⟩
    · rw [hregistry] at hmem
      exact hknown e hmem htold
    · rw [hregistry] at hmem
      rw [hmax]
      exact hfollows.greatest e hmem hready

/-- A step on which a session has come further, in its order. -/
lemma AtRest.follows_step_of_progress (h : m.AtRest settings)
    (hfollows : m.Follows peer version told) (hlive : peer ∈ m.registry.ids)
    (hmarks : n.isProgress ((m.step choices moment (.notice peer n)).2.any
      ManagerEffect.isConsent) = true)
    (horder : InOrder version heights (told ++ [n])) :
    (m.step choices moment (.notice peer n)).1.Follows peer version (told ++ [n]) ∧
      (m.step choices moment (.notice peer n)).2.filterMap (ManagerEffect.heightOf? peer) =
        if greatestHeight version told < greatestHeight version (told ++ [n]) then
          [greatestHeight version (told ++ [n])] else [] := by
  have hsilent : (∀ height, n ≠ .remoteHeight height) → n.height? = none →
      (m.step choices moment (.notice peer n)).2.filterMap (ManagerEffect.heightOf? peer) =
        if greatestHeight version told < greatestHeight version (told ++ [n]) then
          [greatestHeight version (told ++ [n])] else [] := by
    intro hn hnone
    rw [greatestHeight_snoc_of_height?_eq_none hnone, if_neg (UInt32.lt_irrefl _),
      heightsOf_step_of_live (h.isStopped_of_live hlive)]
    refine List.filterMap_eq_nil_iff.mpr (m.handle_heightOf?_eq_none choices moment ?_)
    exact fun height heq => hn height (ManagerCommand.notice.inj heq).2
  rcases horder.next with ⟨rfl, rfl⟩ | ⟨rfl, rfl⟩ | ⟨hready, height, rfl⟩
  · exact ⟨h.follows_introduced hlive hmarks, hsilent (fun _ => PeerNotice.noConfusion) rfl⟩
  · exact ⟨h.follows_ready hlive hfollows, hsilent (fun _ => PeerNotice.noConfusion) rfl⟩
  · obtain ⟨hnext, hreports⟩ := h.follows_height hlive hfollows hready height
    refine ⟨hnext, ?_⟩
    rw [hreports, greatestHeight_snoc]
    by_cases hgreater : greatestHeight version told < height
    · simp only [if_pos hgreater]
    · simp only [if_neg hgreater, if_neg (UInt32.lt_irrefl _)]

/-- What one command does if the session keeps to its order, whatever the command is. -/
lemma AtRest.follows_step (h : m.AtRest settings) (hfollows : m.Follows peer version told)
    (horder : InOrder version heights (told ++ m.progress peer choices moment c)) :
    (m.step choices moment c).1.Follows peer version (told ++ m.progress peer choices moment c) ∧
      (m.step choices moment c).2.filterMap (ManagerEffect.heightOf? peer) =
        if greatestHeight version told <
            greatestHeight version (told ++ m.progress peer choices moment c) then
          [greatestHeight version (told ++ m.progress peer choices moment c)] else [] := by
  rcases m.progress_eq_or peer choices moment c with hquiet | ⟨n, rfl, hlive, hprogress, hmarks⟩
  · rw [hquiet, List.append_nil, if_neg (UInt32.lt_irrefl _)]
    exact ⟨h.follows_step_of_progress_eq_nil hfollows hquiet, heightsOf_of_progress_eq_nil hquiet⟩
  · rw [hprogress] at horder ⊢
    exact h.follows_step_of_progress hfollows hlive hmarks horder

/-- The node is told of a height only when a peer that is ready reports it. -/
lemma AtRest.ready_of_raised (h : m.AtRest settings) (hfollows : m.Follows peer version told)
    (horder : InOrder version heights (told ++ m.progress peer choices moment c))
    (hraised : (m.step choices moment c).2.filterMap (ManagerEffect.heightOf? peer) ≠ []) :
    .ready ∈ told ∧ peer ∈ m.registry.ids ∧ peer ∈ (m.step choices moment c).1.registry.ids := by
  rcases m.progress_eq_or peer choices moment c with hquiet | ⟨n, rfl, hlive, hprogress, hmarks⟩
  · exact absurd (heightsOf_of_progress_eq_nil hquiet) hraised
  · rw [hprogress] at horder
    rw [(h.follows_step_of_progress hfollows hlive hmarks horder).2] at hraised
    have hn : n.height? ≠ none := by
      intro hnone
      rw [greatestHeight_snoc_of_height?_eq_none hnone, if_neg (UInt32.lt_irrefl _)] at hraised
      exact hraised rfl
    rcases horder.next with ⟨-, rfl⟩ | ⟨-, rfl⟩ | ⟨hready, height, rfl⟩
    · exact absurd rfl hn
    · exact absurd rfl hn
    · refine ⟨hready, hlive, ?_⟩
      have hstopped := h.isStopped_of_live hlive
      rw [(step_notice_of_live hstopped choices moment peer _).1,
        m.ids_onNotice choices moment peer PeerNotice.noConfusion]
      exact hlive

/-! ## Commands one after the other -/

lemma progressOver_append (m : Manager) (peer : PeerId)
    (commands later : List (Choices × Moment × ManagerCommand)) :
    m.progressOver peer (commands ++ later) =
      m.progressOver peer commands ++ (m.thereafter commands).progressOver peer later := by
  induction commands generalizing m with
  | nil => rfl
  | cons x rest ih =>
    obtain ⟨choices, moment, c⟩ := x
    rw [List.cons_append, progressOver, progressOver, ih, List.append_assoc, thereafter_cons]

/-- The manager follows a session as long as it keeps to its order, and the heights that the node is
told of become greater and greater. -/
lemma AtRest.follows_thereafter (h : m.AtRest settings) (hfollows : m.Follows peer version told)
    {commands : List (Choices × Moment × ManagerCommand)}
    (horder : InOrder version heights (told ++ m.progressOver peer commands)) :
    let reports := (m.effectsOver commands).filterMap (ManagerEffect.heightOf? peer)
    (m.thereafter commands).Follows peer version (told ++ m.progressOver peer commands) ∧
      reports.Pairwise (· < ·) ∧ ∀ height ∈ reports, greatestHeight version told < height := by
  induction commands generalizing m told with
  | nil =>
    rw [progressOver, List.append_nil]
    exact ⟨hfollows, .nil, List.forall_mem_nil _⟩
  | cons x rest ih =>
    obtain ⟨choices, moment, c⟩ := x
    rw [progressOver, ← List.append_assoc] at horder
    obtain ⟨hnext, hreports⟩ := h.follows_step hfollows horder.of_append
    obtain ⟨hend, hpairwise, hgreater⟩ := ih (h.step choices moment c) hnext horder
    -- What the node is told later is greater than all that this command brings.
    have hle := greatestHeight_le_append version told (m.progress peer choices moment c)
    have hlater : ∀ height ∈ ((m.step choices moment c).1.effectsOver rest).filterMap
        (ManagerEffect.heightOf? peer), greatestHeight version told < height :=
      fun height hheight => UInt32.lt_of_le_of_lt hle (hgreater height hheight)
    rw [thereafter_cons, progressOver, ← List.append_assoc, effectsOver]
    dsimp only
    rw [List.filterMap_append, hreports]
    refine ⟨hend, ?_⟩
    split_ifs with hraised
    · rw [List.singleton_append]
      exact ⟨hpairwise.cons hgreater, List.forall_mem_cons.mpr ⟨hraised, hlater⟩⟩
    · exact ⟨hpairwise, hlater⟩

/-- If the session of a peer keeps to its order, whatever else the manager is told in between: the
heights of this peer that the node is told of become greater and greater, and are greater than the
one that it began with.  From the moment on when it is ready, the height that is kept of it is the
greatest of the one that it began with and all that it reported; it does not become less; and each
time that it becomes greater, and at no other time, the node is told of it, once. -/
theorem heights_only_grow (settings : Settings) (peer : PeerId) (version : Version)
    (heights : List UInt32) (commands : List (Choices × Moment × ManagerCommand))
    (horder : InOrder version heights ((start settings).progressOver peer commands)) :
    let reports := ((start settings).effectsOver commands).filterMap (ManagerEffect.heightOf? peer)
    reports.Pairwise (· < ·) ∧ (∀ height ∈ reports, version.startHeight < height) ∧
    ∀ before later, commands = before ++ later →
      let m := after settings before
      let told := (start settings).progressOver peer before
      (.ready ∈ told → ∀ entry, m.registry.get? peer = some entry →
        entry.lastBlockIndex =
          (told.filterMap PeerNotice.height?).foldl max version.startHeight ∧
        ∀ entry', (after settings commands).registry.get? peer = some entry' →
          entry.lastBlockIndex ≤ entry'.lastBlockIndex) ∧
      ∀ choices moment c rest, later = (choices, moment, c) :: rest →
        let next := m.step choices moment c
        let raised := next.2.filterMap (ManagerEffect.heightOf? peer)
        (.ready ∈ told → ∀ entry entry', m.registry.get? peer = some entry →
          next.1.registry.get? peer = some entry' →
          raised = if entry.lastBlockIndex < entry'.lastBlockIndex then [entry'.lastBlockIndex]
            else []) ∧
        (raised ≠ [] → .ready ∈ told ∧ peer ∈ m.registry.ids ∧ peer ∈ next.1.registry.ids) := by
  intro reports
  have hstart := atRest_start settings
  have hbegins := follows_nil (start settings) peer version
  obtain ⟨-, hpairwise, hgreater⟩ := hstart.follows_thereafter hbegins horder
  refine ⟨hpairwise, hgreater, ?_⟩
  rintro before later rfl m told
  have hm : m.AtRest settings := atRest_after settings before
  rw [progressOver_append] at horder
  have hfollows : m.Follows peer version told :=
    (hstart.follows_thereafter hbegins horder.of_append).1
  refine ⟨fun hready entry hentry => ?_, ?_⟩
  · have hheight := hfollows.greatest entry (Registry.mem_of_get? hentry) hready
    refine ⟨hheight, fun entry' hentry' => ?_⟩
    obtain ⟨hend, -⟩ := hm.follows_thereafter hfollows horder
    rw [after_append] at hentry'
    have hheight' :=
      hend.greatest entry' (Registry.mem_of_get? hentry') (List.mem_append_left _ hready)
    rw [hheight, hheight']
    exact greatestHeight_le_append _ _ _
  · rintro choices moment c rest rfl next raised
    have hstep : InOrder version heights (told ++ m.progress peer choices moment c) := by
      have hcons := horder
      rw [progressOver, ← List.append_assoc] at hcons
      exact hcons.of_append
    obtain ⟨hnext, hraised⟩ := hm.follows_step hfollows hstep
    refine ⟨fun hready entry entry' hentry hentry' => ?_, hm.ready_of_raised hfollows hstep⟩
    rw [hfollows.greatest entry (Registry.mem_of_get? hentry) hready,
      hnext.greatest entry' (Registry.mem_of_get? hentry') (List.mem_append_left _ hready)]
    exact hraised

/-- Of four heights that a peer reports, among what another one tells, two are greater than all
before, and the node is told of these. -/
theorem heights_only_grow_of_two_peers :
    ∃ (version : Version) (commands : List (Choices × Moment × ManagerCommand)),
      let settings : Settings := .standard (.ofMagic 7 1)
      let reports := ((start settings).effectsOver commands).filterMap (ManagerEffect.heightOf? ⟨1⟩)
      InOrder version [5, 12, 12, 20] ((start settings).progressOver ⟨1⟩ commands) ∧
      version.startHeight = 10 ∧ reports = [12, 20] ∧ reports.Pairwise (· < ·) ∧
      ∃ entry, (after settings commands).registry.get? ⟨1⟩ = some entry ∧
        entry.lastBlockIndex = 20 := by
  let settings : Settings := .standard (.ofMagic 7 1)
  let version : Version := (Identity.ofMagic 7 2).version 10 0
  let other : Version := (Identity.ofMagic 7 3).version 50 0
  let now : Moment := ⟨0, 0⟩
  let first : Endpoint := ⟨.v4 ⟨[10, 0, 0, 1], rfl⟩, 1⟩
  let second : Endpoint := ⟨.v4 ⟨[10, 0, 0, 2], rfl⟩, 2⟩
  let told (number : Nat) (n : PeerNotice) : Choices × Moment × ManagerCommand :=
    (.first, now, .notice ⟨number⟩ n)
  let notices : List (Choices × Moment × ManagerCommand) :=
    [told 1 (.introduced version), told 2 (.introduced other), told 1 .ready,
      told 1 (.remoteHeight 5), told 2 .ready, told 2 (.remoteHeight 60), told 1 (.remoteHeight 12),
      told 1 (.remoteHeight 12), told 2 (.remoteHeight 15), told 1 (.remoteHeight 20)]
  let met := connects .first now [(first, .inbound), (second, .inbound)]
  let commands := met ++ notices
  let both : Manager := { start settings with
    registry := (Registry.empty.joinedBy first .inbound).joinedBy second .inbound }
  have hmet : (start settings).thereafter met = both ∧
      ∀ effect ∈ (start settings).effectsOver met, ∃ id, effect = .accepted id :=
    (atRest_start settings).thereafter_connects rfl (by decide) (by decide) .first now
  obtain ⟨hboth, haccepted⟩ := hmet
  have hprogress : (start settings).progressOver ⟨1⟩ commands =
      .introduced version :: .ready :: [5, 12, 12, 20].map .remoteHeight := by
    rw [progressOver_append, hboth]
    decide +kernel
  have horder : InOrder version [5, 12, 12, 20] ((start settings).progressOver ⟨1⟩ commands) := by
    rw [hprogress]
    exact List.prefix_rfl
  obtain ⟨hpairwise, -, hheights⟩ :=
    heights_only_grow settings ⟨1⟩ version [5, 12, 12, 20] commands horder
  have hreports : ((start settings).effectsOver commands).filterMap
      (ManagerEffect.heightOf? ⟨1⟩) = [12, 20] := by
    have hsilent : ((start settings).effectsOver met).filterMap
        (ManagerEffect.heightOf? ⟨1⟩) = [] := by
      refine List.filterMap_eq_nil_iff.mpr fun effect heffect => ?_
      obtain ⟨id, rfl⟩ := haccepted effect heffect
      rfl
    rw [effectsOver_append, List.filterMap_append, hsilent, hboth]
    decide +kernel
  have hlive : ∃ entry, (after settings commands).registry.get? ⟨1⟩ = some entry := by
    have hafter : after settings commands = both.thereafter notices := by
      rw [after_append, ← hboth]
      rfl
    rw [hafter]
    exact Option.isSome_iff_exists.mp (by decide +kernel)
  obtain ⟨entry, hentry⟩ := hlive
  have hready : .ready ∈ (start settings).progressOver ⟨1⟩ commands := by
    rw [hprogress]
    exact List.mem_cons_of_mem _ List.mem_cons_self
  have hheight := (hheights _ [] (List.append_nil _).symm).1 hready entry hentry
  refine ⟨version, commands, horder, by decide +kernel, hreports, hpairwise, entry,
    hentry, ?_⟩
  rw [hheight.1, hprogress]
  decide +kernel

end Manager

end PeerNet
