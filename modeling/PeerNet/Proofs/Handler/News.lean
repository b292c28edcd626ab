import PeerNet.Proofs.Handler.Grammar
import PeerNet.Proofs.Handler.Work

/-!
# News among the hashes that are announced

A peer announces hashes in any number and order, some of them more than once, and some of them known
to the handler in one way or another.  What is news among them becomes work: every hash once, in the
order in which the hashes first come.  From then on the work is awaited, so that an announcement of
some of the same hashes has no news any more.

A hash is dropped either because it is no news when the announcement comes, or because it came
before in the same announcement.  The second is found out by the way: taking up a hash makes it
awaited, and what is awaited is not taken up (`Handler.awaitEach_snd`).
-/

namespace PeerNet

namespace Handler

/-- The news in an announcement: every hash once, where it first comes. -/
def news (h : Handler) (ledger : Ledger) (l : HashList) : List Hash :=
  (l.hashes.filter (h.isNews ledger l.kind)).eraseDups

variable {h : Handler} {ledger : Ledger} {l : HashList}

/-- A hash is news if it is not awaited, was not exchanged with the peer, and names nothing that the
ledger has. -/
lemma isNews_iff {kind : InventoryKind} {x : Hash} :
    h.isNews ledger kind x = true ↔ h.pending.contains x = false ∧ h.known.contains x = false ∧
      h.sent.contains x = false ∧ ledger.holds kind x = false := by
  simp [isNews, and_assoc]

/-- The news are the hashes of the announcement that are news. -/
lemma mem_news {x : Hash} :
    x ∈ h.news ledger l ↔ x ∈ l.hashes ∧ h.isNews ledger l.kind x = true := by
  rw [news, List.mem_eraseDups, List.mem_filter]

/-- What is taken up from an announcement is the news in it. -/
lemma awaitEach_snd_eq_news (now : Nat) :
    (awaitEach now h.pending (l.hashes.filter (h.isNews ledger l.kind))).2 = h.news ledger l := by
  rw [awaitEach_snd, List.filter_filter, news]
  congr 1
  apply List.filter_congr
  intro x hx
  cases hawaited : h.pending.contains x with
  | true => simp [isNews, hawaited]
  | false => simp

/-- The news is awaited from now on; the rest is awaited as before. -/
lemma since?_awaitEach_news (now : Nat) (x : Hash) :
    (awaitEach now h.pending (l.hashes.filter (h.isNews ledger l.kind))).1.since? x =
      if x ∈ h.news ledger l then some now else h.pending.since? x := by
  have hmem : x ∈ l.hashes.filter (h.isNews ledger l.kind) ↔ x ∈ h.news ledger l :=
    List.mem_eraseDups.symm
  rw [since?_awaitEach, if_congr hmem rfl rfl]
  split_ifs with hx
  · obtain ⟨hawaited, -⟩ := isNews_iff.mp (mem_news.mp hx).2
    rw [PendingHashes.since?_eq_none_iff.mpr hawaited, Option.none_or]
  · rfl

/-- After an announcement the handler awaits its news and all that it awaited before. -/
lemma contains_awaitEach_news (now : Nat) (x : Hash) :
    (awaitEach now h.pending (l.hashes.filter (h.isNews ledger l.kind))).1.contains x = true ↔
      x ∈ h.news ledger l ∨ h.pending.contains x = true := by
  rw [PendingHashes.contains_eq_isSome, PendingHashes.contains_eq_isSome, since?_awaitEach_news]
  split_ifs with hx <;> simp [hx]

/-- What was announced once is no news any more, when the news in it is awaited. -/
lemma news_eq_nil_of_awaited {pending : PendingHashes Hash}
    (hawaited : ∀ x, x ∈ h.news ledger l ∨ h.pending.contains x = true → pending.contains x = true)
    {ledger' : Ledger} {l' : HashList} (hkind : l'.kind = l.kind)
    (hhashes : ∀ x ∈ l'.hashes, x ∈ l.hashes)
    (hholds : ∀ x, ledger.holds l.kind x = true → ledger'.holds l.kind x = true) :
    ({ h with pending } : Handler).news ledger' l' = [] := by
  rw [List.eq_nil_iff_forall_not_mem]
  intro x hx
  obtain ⟨hmem, hnews⟩ := mem_news.mp hx
  rw [hkind] at hnews
  obtain ⟨hpending, hknown, hsent, hheld⟩ := isNews_iff.mp hnews
  -- It was news before too, or it was awaited: either way it is awaited now.
  have hbefore : x ∈ h.news ledger l ∨ h.pending.contains x = true := by
    by_cases hwaiting : h.pending.contains x = true
    · exact .inr hwaiting
    · left
      have hunheld : ledger.holds l.kind x = false := by
        by_contra hheld'
        rw [hholds x (Bool.eq_true_of_not_eq_false hheld')] at hheld
        exact absurd hheld (by decide)
      exact mem_news.mpr ⟨hhashes x hmem,
        isNews_iff.mpr ⟨Bool.eq_false_of_not_eq_true hwaiting, hknown, hsent, hunheld⟩⟩
  have hnow : pending.contains x = true := hawaited x hbefore
  rw [hnow] at hpending
  exact absurd hpending (by decide)

/-- An announcement makes work of the news in it, if there is any, and does nothing else. -/
lemma call_inv (hready : h.state = .ready) (moment : Moment) :
    h.call (.handle ledger moment (.message (.inv l))) =
      ({ h with pending :=
          (awaitEach moment.now h.pending (l.hashes.filter (h.isNews ledger l.kind))).1 },
        ⟨[], if h.news ledger l = [] then [] else [.newTasks ⟨l.kind, h.news ledger l⟩], none,
          none⟩) := by
  rw [call_message_of_ready hready ledger moment rfl]
  change ((h.onInv ledger moment.now l).handler, Answer.mk (h.onInv ledger moment.now l).events
    (h.onInv ledger moment.now l).reports none none) = _
  unfold onInv
  dsimp only
  rw [awaitEach_snd_eq_news]
  split
  · next hnone => rw [if_pos hnone]
  · next hsome => rw [if_neg hsome]

/-- Where there is no news, nothing happens. -/
lemma call_inv_of_news_eq_nil (hready : h.state = .ready) (moment : Moment)
    (hnone : h.news ledger l = []) :
    h.call (.handle ledger moment (.message (.inv l))) = (h, ⟨[], [], none, none⟩) := by
  have hfilter : l.hashes.filter (h.isNews ledger l.kind) = [] := by
    rw [List.eq_nil_iff_forall_not_mem]
    intro x hx
    have hmem : x ∈ h.news ledger l := List.mem_eraseDups.mpr hx
    rw [hnone] at hmem
    exact List.not_mem_nil hmem
  rw [call_inv hready, hfilter, if_pos hnone]
  rfl

/-- An announcement yields exactly the work that is new: the hashes that are neither awaited, nor
exchanged with the peer before, nor at hand, each where it first comes in the announcement.  There
is no report if there are none.  Those hashes are awaited from now on, and nothing else about the
handler changes.  Whatever the peer announces next of the same hashes, in any order and number and
at any time, does nothing, unless an object that was at hand has gone. -/
theorem news_becomes_work (hready : h.state = .ready) (ledger : Ledger) (moment : Moment)
    (l : HashList) :
    let work := (l.hashes.filter fun x => !h.pending.contains x && !h.known.contains x &&
      !h.sent.contains x && !ledger.holds l.kind x).eraseDups
    ∃ pending : PendingHashes Hash,
      h.call (.handle ledger moment (.message (.inv l))) =
        ({ h with pending },
          ⟨[], if work = [] then [] else [.newTasks ⟨l.kind, work⟩], none, none⟩) ∧
      (∀ x, pending.since? x = if x ∈ work then some moment.now else h.pending.since? x) ∧
      (∀ x ∈ work, pending.contains x = true) ∧
      ∀ (ledger' : Ledger) (moment' : Moment) (l' : HashList), l'.kind = l.kind →
        (∀ x ∈ l'.hashes, x ∈ l.hashes) →
        (∀ x, ledger.holds l.kind x = true → ledger'.holds l.kind x = true) →
        ({ h with pending } : Handler).call (.handle ledger' moment' (.message (.inv l'))) =
          ({ h with pending }, ⟨[], [], none, none⟩) := by
  intro work
  refine ⟨_, call_inv hready moment, since?_awaitEach_news moment.now, ?_, ?_⟩
  · intro x hx
    exact (contains_awaitEach_news moment.now x).mpr (.inl hx)
  · intro ledger' moment' l' hkind hhashes hholds
    apply call_inv_of_news_eq_nil
    · exact hready
    · exact news_eq_nil_of_awaited (fun x => (contains_awaitEach_news moment.now x).mpr) hkind
        hhashes hholds

/-- Two transactions that are announced to a handler after the handshake, one of them twice, are new
work once.  Announced once more in another order they are not. -/
theorem news_becomes_work_of_two_transactions :
    let ledger : Ledger := MemoryLedger.toLedger ⟨[], none, [], [], [], [], none, 0⟩
    let item (m : Message) : Call := .handle ledger ⟨0, 0⟩ (.message m)
    let h : Handler :=
      (start ledger 1000).callAll [item (.version ⟨0, 0, 0, 1, "", []⟩), item .verack]
    let x : Hash := FixedBytes.zero 32
    let y : Hash := ⟨List.replicate 32 1, by simp⟩
    x ≠ y ∧ ∃ pending : PendingHashes Hash,
      h.call (item (.inv ⟨.transaction, [x, y, x]⟩)) =
        ({ h with pending }, ⟨[], [.newTasks ⟨.transaction, [x, y]⟩], none, none⟩) ∧
      pending.contains x = true ∧ pending.contains y = true ∧
      ({ h with pending } : Handler).call (item (.inv ⟨.transaction, [y, y, x]⟩)) =
        ({ h with pending }, ⟨[], [], none, none⟩) := by
  intro ledger item h x y
  have hxy : x ≠ y := by decide
  have hnew : ∀ z, h.isNews ledger .transaction z = true := by
    intro z
    have hpending : h.pending = .empty := rfl
    have hknown : h.known = .ofCapacity (setCapacity ledger) := rfl
    have hsent : h.sent = .ofCapacity (setCapacity ledger) := rfl
    rw [isNews_iff, hpending, hknown, hsent]
    simp [PendingHashes.contains, PendingHashes.empty, FifoSet.contains, FifoSet.ofCapacity,
      Ledger.holds, ledger, MemoryLedger.toLedger, MemoryLedger.positions]
  have hwork : ([x, y, x].filter fun z => !h.pending.contains z && !h.known.contains z &&
      !h.sent.contains z && !ledger.holds .transaction z).eraseDups = [x, y] := by
    have hall : [x, y, x].filter (h.isNews ledger .transaction) = [x, y, x] :=
      List.filter_eq_self.mpr fun z _ => hnew z
    exact (congrArg List.eraseDups hall).trans (by decide)
  obtain ⟨pending, hcall, -, hawaited, hagain⟩ :=
    news_becomes_work (h := h) rfl ledger ⟨0, 0⟩ ⟨.transaction, [x, y, x]⟩
  dsimp only at hcall hawaited
  rw [hwork] at hcall hawaited
  refine ⟨hxy, pending, hcall, hawaited x ?_, hawaited y ?_, hagain ledger ⟨0, 0⟩ _ rfl ?_ ?_⟩
  · simp
  · simp
  · simp
  · intro z hz
    exact hz

end Handler

end PeerNet
