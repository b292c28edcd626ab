import PeerNet.Proofs.Mailbox.Order

/-!
# What a push is answered

A push is answered by the mailbox as it is at that moment, whoever else waits at it; a push that is
tried again is one more push.  So the moments to speak about are the mailboxes that pushes and
deliveries lead to, in whatever order they come (`Mailbox.Reachable`).

Two answers are not what the bounds suggest.  The timer finds room in any lane, but it takes up room
as well, so that a message finds less (`Mailbox.room_beside_timers`).  And a request is redundant
beside any other of its command, whatever the two ask for (`Mailbox.dropped_for_its_command`).
-/

namespace PeerNet

namespace Mailbox

/-- The mailboxes that can come about. -/
inductive Reachable (capacity : Nat) : Mailbox → Prop
  | new : Reachable capacity (ofCapacity capacity)
  | push {b : Mailbox} (h : Reachable capacity b) (item : MailboxItem) :
    Reachable capacity (b.push item).1
  | receive {b : Mailbox} (h : Reachable capacity b) : Reachable capacity b.receive.1
  | close {b : Mailbox} (h : Reachable capacity b) : Reachable capacity b.close

variable {capacity : Nat} {b : Mailbox} {item : MailboxItem} {m : Message}

/-- However a mailbox is used, its lanes stay in order and keep their size. -/
lemma Reachable.orderly (h : Reachable capacity b) :
    b.Orderly ∧ b.laneCapacity = max capacity 1 := by
  induction h with
  | new => exact ⟨orderly_ofCapacity capacity, rfl⟩
  | push _ item ih => exact ⟨ih.1.push item, (push_fst_spec _ item).1.trans ih.2⟩
  | @receive b _ ih =>
    rcases hreceive : b.receive with ⟨b', item?⟩
    cases item? with
    | none =>
      obtain rfl : b' = b := by
        rw [Mailbox.receive] at hreceive
        split at hreceive <;> simp_all
      exact ih
    | some item =>
      obtain ⟨-, -, -, -, hcapacity, -⟩ := receive_spec hreceive
      exact ⟨ih.1.receive hreceive, hcapacity.trans ih.2⟩
  | close _ ih => exact ⟨⟨ih.1.sorted, ih.1.bounded, ih.1.single⟩, ih.2⟩

/-! ## Room -/

/-- The timer stands among the bulk traffic only. -/
lemma Orderly.count_timer (h : b.Orderly) (hhigh : item.isHighPriority = true) :
    (b.lane item).count .timer = 0 := by
  rw [List.count_eq_zero, lane_eq_contents, hhigh]
  intro htimer
  exact absurd (h.sorted true .timer htimer) (by decide)

/-- A lane holds messages and timers. -/
lemma length_eq_messages_add_timers (items : List MailboxItem) :
    items.length = items.countP (· != .timer) + items.count .timer := by
  rw [List.length_eq_countP_add_countP (· != .timer), List.count]
  congr 1
  refine List.countP_congr fun item _ => ?_
  simp

/-- A message that adds something to those that wait is answered at once if it finds room, and waits
if it does not. -/
lemma push_message (hopen : b.closed = false)
    (hnew : (MailboxItem.message m).isRedundant b.queued = false) :
    b.push (.message m) =
      if (b.lane (.message m)).length < b.laneCapacity then (b.append (.message m), .queued)
      else (b, .blocked) := by
  rw [push, if_neg (by simp [hopen]), if_neg (by simp [hnew])]
  refine if_congr ?_ rfl rfl
  rw [hasRoom_iff, lane_eq_contents, or_iff_right MailboxItem.noConfusion]

/-- For every size of the lanes and every mailbox that can come about: a message that adds something
to those that wait is queued at once if and only if the messages and the timers in its lane together
are fewer than the lane has room for; else it waits.  So each timer that is queued takes the room of
a message.  Timers stand in the low lane only, so control traffic always has the room that it is
meant to have. -/
theorem room_beside_timers {capacity : Nat} {b : Mailbox} (hb : Reachable capacity b)
    (hopen : b.closed = false) (m : Message)
    (hnew : (MailboxItem.message m).isRedundant b.queued = false) :
    let item := MailboxItem.message m
    let messages := (b.lane item).countP (· != .timer)
    let timers := (b.lane item).count .timer
    (messages + timers < max 1 capacity → b.push item = (b.append item, .queued)) ∧
    (max 1 capacity ≤ messages + timers → b.push item = (b, .blocked)) ∧
    (item.isHighPriority = true → timers = 0) := by
  intro item messages timers
  obtain ⟨horderly, hcapacity⟩ := hb.orderly
  have hlength : (b.lane item).length = messages + timers := length_eq_messages_add_timers _
  rw [push_message hopen hnew, hlength, hcapacity, Nat.max_comm]
  exact ⟨fun hroom => if_pos hroom, fun hfull => if_neg (Nat.not_lt.mpr hfull),
    horderly.count_timer⟩

/-- Beside a timer a request finds room in a lane of two places and none in a lane of one; in the
lane of control traffic there is no timer. -/
theorem room_beside_timers_of_one_timer :
    let b : Nat → Mailbox := fun capacity => ((ofCapacity capacity).push .timer).1
    let item := MailboxItem.message .mempool
    (b 2).push item = ((b 2).append item, .queued) ∧ (b 1).push item = (b 1, .blocked) ∧
    ((b 1).lane (.message .verack)).count .timer = 0 := by
  intro b item
  have hreachable : ∀ capacity, Reachable capacity (b capacity) := fun _ => .push .new .timer
  have hnew : ∀ capacity, item.isRedundant (b capacity).queued = false := fun _ => rfl
  obtain ⟨htwo, -, -⟩ := room_beside_timers (hreachable 2) rfl .mempool (hnew 2)
  obtain ⟨-, hone, -⟩ := room_beside_timers (hreachable 1) rfl .mempool (hnew 1)
  obtain ⟨-, -, hhigh⟩ := room_beside_timers (hreachable 1) rfl .verack rfl
  exact ⟨htwo (by decide), hone (by decide), hhigh rfl⟩

/-- A lane without a message, and with room for one, refuses the first because a timer stands
there. -/
theorem message_blocked_by_timer :
    let b := ((ofCapacity 1).push .timer).1
    let item := MailboxItem.message .mempool
    Reachable 1 b ∧ b.closed = false ∧ item.isRedundant b.queued = false ∧
    (b.lane item).countP (· != .timer) = 0 ∧ b.push item = (b, .blocked) :=
  ⟨.push .new .timer, rfl, rfl, rfl, rfl⟩

/-! ## Redundant requests -/

/-- An item has a command if it is a message of this command. -/
lemma command?_eq_some_iff {c : Command} :
    item.command? = some c ↔ ∃ m, item = .message m ∧ m.command = c := by
  cases item <;> simp [MailboxItem.command?]

/-- A message is redundant if it is a request of which one is enough, and another of the same
command waits. -/
lemma isRedundant_message_iff {items : List MailboxItem} :
    (MailboxItem.message m).isRedundant items = true ↔
      m.command ∈ MailboxItem.deduplicatedCommands ∧
        ∃ m', .message m' ∈ items ∧ m'.command = m.command := by
  rw [MailboxItem.isRedundant, MailboxItem.command?, Option.any_some, Bool.and_eq_true,
    List.contains_iff_mem, List.any_eq_true]
  refine and_congr_right fun _ => ?_
  simp only [beq_iff_eq, command?_eq_some_iff]
  constructor
  · rintro ⟨_, hitem, m', rfl, hcommand⟩
    exact ⟨m', hitem, hcommand⟩
  · rintro ⟨m', hitem, hcommand⟩
    exact ⟨_, hitem, m', rfl, hcommand⟩

/-- A push is dropped if the mailbox is open and the item is redundant. -/
lemma push_eq_dropped_iff :
    (b.push item).2 = .dropped ↔ b.closed = false ∧ item.isRedundant b.queued = true := by
  rw [push]
  split_ifs with hclosed hredundant hroom
  · simp [hclosed]
  · simp [hclosed, hredundant]
  · simp [hredundant]
  · simp [hredundant]

/-- What is dropped changes nothing. -/
lemma push_of_dropped (h : (b.push item).2 = .dropped) : b.push item = (b, .dropped) := by
  obtain ⟨hopen, hredundant⟩ := push_eq_dropped_iff.mp h
  rw [push, if_neg (by simp [hopen]), if_pos hredundant]

/-- Two messages of a command that has no payload are the same. -/
lemma eq_of_command_eq {m' : Message} (hbare : m.command = .getAddr ∨ m.command = .mempool)
    (hsame : m'.command = m.command) : m' = m := by
  have hgetAddr : ∀ {m : Message}, m.command = .getAddr → m = .getAddr := by
    intro m h
    cases m <;> first | rfl | exact Command.noConfusion h
  have hmempool : ∀ {m : Message}, m.command = .mempool → m = .mempool := by
    intro m h
    cases m <;> first | rfl | exact Command.noConfusion h
  rcases hbare with h | h
  · rw [hgetAddr h, hgetAddr (hsame.trans h)]
  · rw [hmempool h, hmempool (hsame.trans h)]

/-- Beside a redundant request one other of its command waits, and no more. -/
lemma Orderly.exists_of_dropped (h : b.Orderly) (hdropped : (b.push item).2 = .dropped) :
    ∃ m m', item = .message m ∧ b.queued.filter (·.command? == some m.command) = [.message m'] ∧
      m'.command = m.command := by
  obtain ⟨-, hredundant⟩ := push_eq_dropped_iff.mp hdropped
  cases item with
  | timer => exact Bool.noConfusion hredundant
  | message m =>
    obtain ⟨hdeduplicated, m', hm', hcommand⟩ := isRedundant_message_iff.mp hredundant
    have hmem : .message m' ∈ b.queued.filter (·.command? == some m.command) :=
      List.mem_filter.mpr ⟨hm', by simp [MailboxItem.command?, hcommand]⟩
    have hsingle := h.single m.command hdeduplicated
    rw [List.countP_eq_length_filter] at hsingle
    obtain ⟨other, hother⟩ :=
      List.length_eq_one_iff.mp (Nat.le_antisymm hsingle (List.length_pos_of_mem hmem))
    rw [hother, List.mem_singleton] at hmem
    exact ⟨m, m', rfl, hmem ▸ hother, hcommand⟩

/-- A push takes nothing out of the mailbox. -/
lemma queued_subset_push (b : Mailbox) (item : MailboxItem) :
    b.queued ⊆ (b.push item).1.queued := by
  intro other hother
  rw [queued_perm_contents, List.mem_append] at hother ⊢
  rw [contents_push, contents_push]
  exact hother.imp (List.mem_append_left _) (List.mem_append_left _)

/-- What is redundant stays so while nothing is taken out. -/
lemma isRedundant_push (h : item.isRedundant b.queued = true) (other : MailboxItem) :
    item.isRedundant (b.push other).1.queued = true := by
  cases item with
  | timer => exact Bool.noConfusion h
  | message m =>
    rw [isRedundant_message_iff] at h ⊢
    obtain ⟨hdeduplicated, m', hm', hcommand⟩ := h
    exact ⟨hdeduplicated, m', queued_subset_push b other hm', hcommand⟩

/-- Whatever is dropped when everybody tries again is still redundant when all have tried. -/
lemma Retries.isRedundant_of_dropped {σ : Type} {b' : Mailbox}
    {waiting waiting' : List (σ × MailboxItem)} {answers : List (σ × PushResult)}
    (h : Retries b waiting b' waiting' answers) :
    ∀ a ∈ answers, a.2 = .dropped →
      ∃ item, (a.1, item) ∈ waiting ∧ item.isRedundant b'.queued = true := by
  induction h with
  | nil b => exact List.forall_mem_nil _
  | blocked _ _ ih =>
    intro a ha hdropped
    obtain ⟨item, hitem, hredundant⟩ := ih a ha hdropped
    exact ⟨item, List.mem_cons_of_mem _ hitem, hredundant⟩
  | @answered b b₁ _ who item result _ _ _ hpush _ hrest ih =>
    refine List.forall_mem_cons.mpr ⟨fun hdropped => ?_, fun a ha hdropped => ?_⟩
    · obtain rfl : result = .dropped := hdropped
      obtain ⟨-, hredundant⟩ := push_eq_dropped_iff.mp (congrArg Prod.snd hpush)
      have hnext := isRedundant_push hredundant item
      rw [hpush] at hnext
      exact ⟨item, List.mem_cons_self, hrest.preserves
        (P := fun b => item.isRedundant b.queued = true) (fun _ other h => isRedundant_push h other)
        hnext⟩
    · obtain ⟨item, hitem, hredundant⟩ := ih a ha hdropped
      exact ⟨item, List.mem_cons_of_mem _ hitem, hredundant⟩

/-- Whoever is told in a step that the push was dropped, at once or when it was tried again, is
redundant when the step is over. -/
lemma Run.isRedundant_of_dropped {run : Run} (h : run.Sound capacity) (event : Event) {x : Push}
    (hbefore : (x, .dropped) ∉ run.answers)
    (hdropped : (x, .dropped) ∈ (run.advance event).answers) :
    x.item.isRedundant (run.advance event).counter.mailbox.queued = true := by
  have hretry : ∀ run' : Run, run'.answers = run.answers →
      run'.counter.waiting = run.counter.waiting → (x, .dropped) ∈ run'.retry.answers →
      x.item.isRedundant run'.retry.counter.mailbox.queued = true := by
    intro run' hanswers hwaiting hx
    rw [Run.retry, hanswers] at hx
    obtain ⟨item, hitem, hredundant⟩ := (Run.retries_retry run').isRedundant_of_dropped _
      ((List.mem_append.mp hx).resolve_left hbefore) rfl
    rw [hwaiting] at hitem
    obtain rfl : x.item = item := (h.waits _ hitem).1
    exact hredundant
  cases event with
  | push item =>
    rcases hpush : run.counter.mailbox.push item with ⟨b, result⟩
    by_cases hresult : result = .blocked
    · subst hresult
      obtain rfl := push_eq_of_blocked hpush
      rw [Run.advance_push_of_blocked hpush] at hdropped
      exact absurd hdropped hbefore
    · rw [Run.advance_push_of_answered hpush hresult] at hdropped ⊢
      obtain ⟨rfl, rfl⟩ := Prod.mk.inj
        (List.mem_singleton.mp ((List.mem_append.mp hdropped).resolve_left hbefore))
      obtain ⟨-, hredundant⟩ := push_eq_dropped_iff.mp (congrArg Prod.snd hpush)
      have hnext := isRedundant_push hredundant item
      rw [hpush] at hnext
      exact hnext
  | receive =>
    rcases hreceive : run.counter.mailbox.receive with ⟨b, item?⟩
    cases item? with
    | none =>
      rw [Run.advance_receive_of_none hreceive] at hdropped
      exact absurd hdropped hbefore
    | some item =>
      rw [Run.advance_receive_of_some hreceive] at hdropped ⊢
      exact hretry _ rfl rfl hdropped
  | close =>
    rw [Run.advance_close] at hdropped ⊢
    exact hretry _ rfl rfl hdropped

/-- For every size of the lanes and every mailbox that can come about: a message is dropped if and
only if the mailbox is open, it is one of the four requests of which one is enough, and a message of
the same command is queued at that moment, whatever that asks for.  Nothing but messages is dropped,
the mailbox stays as it is, there is no more than that one message of the command, and if the
command has no payload the two are the same.

So in the course of any steps: when a push is told that it was dropped, at once or because it was
tried again after a delivery, a message of its command is queued, also when that step is over. -/
theorem dropped_for_its_command (capacity : Nat) :
    (∀ b m, Reachable capacity b →
      ((b.push (.message m)).2 = .dropped ↔
        b.closed = false ∧ m.command ∈ [Command.getAddr, .getBlocks, .getHeaders, .mempool] ∧
          ∃ m', .message m' ∈ b.queued ∧ m'.command = m.command)) ∧
    (∀ b item, Reachable capacity b → (b.push item).2 = .dropped →
      b.push item = (b, .dropped) ∧ ∃ m m', item = .message m ∧
        b.queued.filter (·.command? == some m.command) = [.message m'] ∧
        m'.command = m.command ∧ (m.command = .getAddr ∨ m.command = .mempool → m' = m)) ∧
    ∀ events event x,
      let run := Run.after capacity events
      let next := run.advance event
      (x, .dropped) ∉ run.answers → (x, .dropped) ∈ next.answers →
        ∃ m m', x.item = .message m ∧
          .message m' ∈ next.counter.mailbox.queued ∧ m'.command = m.command := by
  refine ⟨fun b m _ => ?_, fun b item hb hdropped => ?_, ?_⟩
  · rw [push_eq_dropped_iff, isRedundant_message_iff]
    rfl
  · obtain ⟨m, m', hitem, hothers, hcommand⟩ := hb.orderly.1.exists_of_dropped hdropped
    exact ⟨push_of_dropped hdropped, m, m', hitem, hothers, hcommand,
      fun hbare => eq_of_command_eq hbare hcommand⟩
  · intro events event x run next hbefore hx
    have hsound : run.Sound capacity := (Run.sound_settled_after capacity events).1
    have hredundant : x.item.isRedundant next.counter.mailbox.queued = true :=
      Run.isRedundant_of_dropped hsound event hbefore hx
    cases hitem : x.item with
    | timer =>
      rw [hitem] at hredundant
      exact Bool.noConfusion hredundant
    | message m =>
      rw [hitem, isRedundant_message_iff] at hredundant
      obtain ⟨-, m', hm', hcommand⟩ := hredundant
      exact ⟨m, m', rfl, hm', hcommand⟩

/-- Of two requests for addresses the second is dropped, and the first is the same. -/
theorem dropped_for_its_command_of_getAddr :
    let request := MailboxItem.message .getAddr
    let b := ((ofCapacity 16).push request).1
    let run := (Run.after 16 [.push request]).advance (.push request)
    (b.push request).2 = .dropped ∧
    (∃ m', b.queued.filter (·.command? == some Command.getAddr) = [.message m'] ∧ m' = .getAddr) ∧
    (⟨1, request⟩, .dropped) ∈ run.answers ∧
    ∃ m', .message m' ∈ run.counter.mailbox.queued ∧ m'.command = .getAddr := by
  intro request b run
  obtain ⟨hiff, hone, hrun⟩ := dropped_for_its_command 16
  have hreachable : Reachable 16 b := .push .new _
  have hdropped : (b.push request).2 = .dropped :=
    (hiff b .getAddr hreachable).mpr ⟨rfl, List.mem_cons_self, .getAddr, List.mem_cons_self, rfl⟩
  obtain ⟨-, m, m', hitem, hothers, -, hsame⟩ := hone b request hreachable hdropped
  obtain rfl : Message.getAddr = m := MailboxItem.message.inj hitem
  have htold : (⟨1, request⟩, .dropped) ∈ run.answers := List.mem_cons_of_mem _ List.mem_cons_self
  have hbefore : (⟨1, request⟩, .dropped) ∉ (Run.after 16 [.push request]).answers := fun h =>
    PushResult.noConfusion (Prod.mk.inj (List.mem_singleton.mp h)).2
  obtain ⟨m, m'', hitem, hqueued, hcommand⟩ := hrun [.push request] (.push request) _ hbefore htold
  obtain rfl : Message.getAddr = m := MailboxItem.message.inj hitem
  exact ⟨hdropped, ⟨m', hothers, hsame (.inl rfl)⟩, htold, m'', hqueued, hcommand⟩

/-- A request for blocks is dropped because another waits that asks for fewer; when that is taken
out nothing is left. -/
theorem different_request_dropped :
    let few : Message := .getBlocks ⟨default, 10⟩
    let many : Message := .getBlocks ⟨default, 20⟩
    let b := ((ofCapacity 16).push (.message few)).1
    Reachable 16 b ∧ b.push (.message many) = (b, .dropped) ∧ .message many ∉ b.queued ∧
    b.receive = (ofCapacity 16, some (.message few)) :=
  ⟨.push .new _, rfl, by decide, rfl⟩

end Mailbox

end PeerNet
