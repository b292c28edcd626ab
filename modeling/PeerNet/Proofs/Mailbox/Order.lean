import PeerNet.Proofs.Mailbox.Retry

/-!
# Order and conservation in a mailbox

A mailbox is used by many: some push, one receives, and pushes to a full lane wait until they are
tried again.  `Mailbox.Run` is a mailbox in the course of such steps, with all pushes and what
became of them, and with everything that was received.

The account always balances (`Run.Sound`).  Each push is answered once or still waits; the items
whose push was answered `queued` are, lane by lane and in that order, those received so far followed
by those in the lane; and the messages among them, followed by those that wait, are in the order in
which they were pushed.  The last needs that nobody waits beside a free place (`Run.Settled`), for
then a push to a lane where somebody waits has to wait as well.
-/

namespace PeerNet

namespace Mailbox

/-- What is done to a mailbox. -/
inductive Event
  | push (item : MailboxItem)
  | receive
  | close

/-- The item of a push. -/
def Event.pushed? : Event → Option MailboxItem
  | .push item => some item
  | _ => none

/-- The pushes among some steps, numbered in the order of the calls. -/
def calls (events : List Event) : List Push := (events.filterMap Event.pushed?).mapIdx Push.mk

/-- A mailbox in use. -/
structure Run where
  counter : Counter Push
  /-- All pushes, in the order of the calls. -/
  pushes : List Push
  /-- The answers given so far; a push that waits has none. -/
  answers : List (Push × PushResult)
  /-- All items that were received. -/
  returned : List MailboxItem

namespace Run

/-- A new mailbox. -/
def start (capacity : Nat) : Run := ⟨Counter.ofCapacity capacity, [], [], []⟩

/-- The next push, if it is of an item. -/
def next (run : Run) (item : MailboxItem) : Push := ⟨run.pushes.length, item⟩

/-- What a push is told at once. -/
def answer (x : Push) (result : PushResult) : List (Push × PushResult) :=
  if result = .blocked then [] else [(x, result)]

/-- One step. -/
def advance (run : Run) : Event → Run
  | .push item =>
    let (counter, result) := run.counter.push (run.next item) item
    { run with
      counter
      pushes := run.pushes ++ [run.next item]
      answers := run.answers ++ answer (run.next item) result }
  | .receive =>
    let (counter, item?, answers) := run.counter.receive
    { run with
      counter, answers := run.answers ++ answers, returned := run.returned ++ item?.toList }
  | .close =>
    let (counter, answers) := run.counter.close
    { run with counter, answers := run.answers ++ answers }

/-- A mailbox of a given size after some steps. -/
def after (capacity : Nat) (events : List Event) : Run := events.foldl advance (start capacity)

/-- The pushes that are not about the timer. -/
def messages (pushes : List Push) : List Push := pushes.filter (·.item != .timer)

/-- The account of a mailbox. -/
structure Sound (capacity : Nat) (run : Run) : Prop where
  orderly : run.counter.mailbox.Orderly
  laneCapacity_eq : run.counter.mailbox.laneCapacity = max capacity 1
  /-- The timer waits for nothing. -/
  waits : ∀ w ∈ run.counter.waiting, w.1.item = w.2 ∧ w.2 ≠ .timer
  /-- What was queued was received or is in its lane. -/
  conserved : ∀ p, (toLane p (accepted run.answers)).map Push.item =
    run.returned.filter (·.isHighPriority == p) ++ run.counter.mailbox.contents p
  /-- Each push is answered once or waits. -/
  accounted : (run.answers.map Prod.fst ++ run.counter.waiting.map Prod.fst).Perm run.pushes
  /-- In each lane the messages keep the order of the calls. -/
  inOrder : ∀ p, (messages (toLane p (accepted run.answers ++
    run.counter.waiting.map Prod.fst))).Sublist run.pushes

/-- Nobody waits beside a free place. -/
def Settled (run : Run) : Prop :=
  ∀ w ∈ run.counter.waiting, run.counter.mailbox.closed = false ∧
    run.counter.mailbox.laneCapacity ≤ (run.counter.mailbox.contents w.2.isHighPriority).length

variable {capacity : Nat} {run : Run}

/-- The account of a new mailbox is empty, and adds up. -/
lemma sound_start (capacity : Nat) : (start capacity).Sound capacity where
  orderly := orderly_ofCapacity capacity
  laneCapacity_eq := rfl
  waits := List.forall_mem_nil _
  conserved p := by cases p <;> rfl
  accounted := .nil
  inOrder p := List.nil_sublist _

/-- At a new mailbox nobody waits. -/
lemma settled_start (capacity : Nat) : (start capacity).Settled := List.forall_mem_nil _

/-! ## A push -/

lemma messages_append (xs ys : List Push) : messages (xs ++ ys) = messages xs ++ messages ys :=
  List.filter_append ..

/-- A push that is blocked waits behind the others and leaves the mailbox alone. -/
lemma advance_push_of_blocked {item : MailboxItem}
    (h : run.counter.mailbox.push item = (run.counter.mailbox, .blocked)) :
    run.advance (.push item) =
      { run with
        counter := ⟨run.counter.mailbox, run.counter.waiting ++ [(run.next item, item)]⟩
        pushes := run.pushes ++ [run.next item] } := by
  simp [advance, Counter.push, h, answer]

/-- A push that is not blocked is answered at once, and nobody comes to wait. -/
lemma advance_push_of_answered {item : MailboxItem} {b : Mailbox} {result : PushResult}
    (h : run.counter.mailbox.push item = (b, result)) (hresult : result ≠ .blocked) :
    run.advance (.push item) =
      { run with
        counter := ⟨b, run.counter.waiting⟩
        pushes := run.pushes ++ [run.next item]
        answers := run.answers ++ [(run.next item, result)] } := by
  cases result <;> simp_all [advance, Counter.push, answer]

/-- Where somebody waits for a lane, a message finds no room in it. -/
lemma toLane_waiting_of_hasRoom (h : run.Sound capacity) (hsettled : run.Settled)
    {item : MailboxItem} (hmessage : item ≠ .timer)
    (hroom : run.counter.mailbox.hasRoom item = true) :
    toLane item.isHighPriority (run.counter.waiting.map Prod.fst) = [] := by
  rw [toLane, List.filter_eq_nil_iff]
  intro x hx hlane
  obtain ⟨w, hw, rfl⟩ := List.mem_map.mp hx
  have hfull := (hsettled w hw).2
  rw [← (h.waits w hw).1, eq_of_beq hlane] at hfull
  rcases hasRoom_iff.mp hroom with htimer | hroom
  · exact hmessage htimer
  · exact Nat.not_lt.mpr hfull hroom

/-- A push that has to wait is accounted for among those that wait. -/
lemma Sound.push_blocked (h : run.Sound capacity) {item : MailboxItem}
    (hpush : run.counter.mailbox.push item = (run.counter.mailbox, .blocked)) :
    (run.advance (.push item)).Sound capacity := by
  have hmessage : item ≠ .timer := by
    have hpushes := pushes_push run.counter.mailbox item
    rw [hpush] at hpushes
    cases hpushes with
    | blocked _ hmessage _ => exact hmessage
  rw [advance_push_of_blocked hpush]
  refine ⟨h.orderly, h.laneCapacity_eq, ?_, h.conserved, ?_, fun p => ?_⟩
  · intro w hw
    rcases List.mem_append.mp hw with hw | hw
    · exact h.waits w hw
    · rw [List.mem_singleton.mp hw]
      exact ⟨rfl, hmessage⟩
  · rw [List.map_append, ← List.append_assoc]
    exact h.accounted.append_right _
  · rw [List.map_append, ← List.append_assoc, toLane_append, messages_append]
    exact (h.inOrder p).append (List.filter_sublist.trans List.filter_sublist)

/-- A push that is answered at once is accounted for by its answer. -/
lemma Sound.push_answered (h : run.Sound capacity) (hsettled : run.Settled) {item : MailboxItem}
    {b : Mailbox} {result : PushResult} (hpush : run.counter.mailbox.push item = (b, result))
    (hresult : result ≠ .blocked) : (run.advance (.push item)).Sound capacity := by
  have horderly := h.orderly.push item
  have hcapacity := (push_fst_spec run.counter.mailbox item).1
  rw [hpush] at horderly hcapacity
  rw [advance_push_of_answered hpush hresult]
  refine ⟨horderly, hcapacity.trans h.laneCapacity_eq, h.waits, fun p => ?_, ?_,
    fun p => ?_⟩
  · have hcontents := contents_push run.counter.mailbox item p
    rw [hpush] at hcontents
    rw [hcontents, ← List.append_assoc, ← h.conserved p, accepted_append, toLane_append,
      List.map_append, toLane_accepted_singleton]
    exact congrArg _ (apply_ite (List.map Push.item) _ _ _)
  · rw [List.map_append, List.append_assoc]
    have hswap : (run.answers.map Prod.fst ++ ([run.next item] ++
        run.counter.waiting.map Prod.fst)).Perm
        (run.answers.map Prod.fst ++ run.counter.waiting.map Prod.fst ++
          [run.next item]) := by
      rw [List.append_assoc]
      exact List.perm_append_comm.append_left _
    exact hswap.trans (h.accounted.append_right _)
  · have hinOrder := h.inOrder p
    rw [toLane_append, messages_append] at hinOrder
    rw [accepted_append, List.append_assoc, toLane_append, toLane_append, messages_append,
      messages_append, toLane_accepted_singleton]
    split_ifs with hlane
    · obtain ⟨rfl, rfl⟩ := hlane
      by_cases htimer : item = .timer
      · subst htimer
        exact hinOrder.trans (List.sublist_append_left _ _)
      · -- Nobody waits for the lane, so the message is not put before anybody.
        have hroom : run.counter.mailbox.hasRoom item = true := by
          have hpushes := pushes_push run.counter.mailbox item
          rw [hpush] at hpushes
          cases hpushes with
          | queued _ _ hroom _ => exact hroom
        have hnone : toLane (run.next item).item.isHighPriority
            (run.counter.waiting.map Prod.fst) = [] :=
          toLane_waiting_of_hasRoom h hsettled htimer hroom
        have hlast : messages [run.next item] = [run.next item] :=
          List.filter_cons_of_pos (bne_iff_ne.mpr htimer)
        rw [hnone] at hinOrder ⊢
        rw [hlast]
        exact ((List.sublist_append_left _ _).trans hinOrder).append (.refl _)
    · exact hinOrder.trans (List.sublist_append_left _ _)

/-- A push leaves nobody beside a free place: whoever finds none waits, and the others wait as
before. -/
lemma Settled.push (hsettled : run.Settled) (item : MailboxItem) :
    (run.advance (.push item)).Settled := by
  rcases hpush : run.counter.mailbox.push item with ⟨b, result⟩
  have hpushes := pushes_push run.counter.mailbox item
  rw [hpush] at hpushes
  by_cases hresult : result = .blocked
  · subst hresult
    cases hpushes with
    | blocked hopen _ hfull =>
      rw [advance_push_of_blocked hpush]
      intro w hw
      rcases List.mem_append.mp hw with hw | hw
      · exact hsettled w hw
      · rw [List.mem_singleton.mp hw]
        exact ⟨hopen, hfull⟩
  · rw [advance_push_of_answered hpush hresult]
    intro w hw
    obtain ⟨hopen, hfull⟩ := hsettled w hw
    obtain ⟨hcapacity, hclosed⟩ := push_fst_spec run.counter.mailbox item
    have hcontents := contents_push run.counter.mailbox item w.2.isHighPriority
    rw [hpush] at hcapacity hclosed hcontents
    refine ⟨hclosed.trans hopen, ?_⟩
    rw [hcapacity, hcontents, List.length_append]
    exact hfull.trans (Nat.le_add_right _ _)

/-! ## Trying again -/

/-- Everybody who waits tries again. -/
def retry (run : Run) : Run :=
  { run with counter := run.counter.retry.1, answers := run.answers ++ run.counter.retry.2 }

/-- Trying again goes through those that wait, one after the other. -/
lemma retries_retry (run : Run) :
    Retries run.counter.mailbox run.counter.waiting run.retry.counter.mailbox
      run.retry.counter.waiting run.counter.retry.2 :=
  retries_retryEach run.counter.mailbox run.counter.waiting

/-- Whoever still waits after trying again finds the lane full. -/
lemma settled_retry (run : Run) : run.retry.Settled := (retries_retry run).full

/-- Trying again keeps the account: whoever is answered waits no more. -/
lemma Sound.retry (h : run.Sound capacity) : run.retry.Sound capacity := by
  have hretries := retries_retry run
  have hitems : ∀ w ∈ run.counter.waiting, w.1.item = w.2 := fun w hw => (h.waits w hw).1
  refine ⟨hretries.preserves (P := Orderly) (fun b item hb => hb.push item) h.orderly,
    hretries.mailbox_spec.1.trans h.laneCapacity_eq,
    fun w hw => h.waits w (hretries.waiting_sublist.subset hw), fun p => ?_, ?_,
    fun p => ?_⟩
  · have hconserved := h.conserved p
    rw [hretries.contents_eq hitems p, ← List.append_assoc]
    rw [Run.retry, accepted_append, toLane_append, List.map_append, hconserved]
  · have hanswered : (run.answers.map Prod.fst ++ (run.counter.retry.2.map Prod.fst ++
        run.retry.counter.waiting.map Prod.fst)).Perm run.pushes :=
      (hretries.perm.append_left _).trans h.accounted
    rwa [← List.append_assoc, ← List.map_append] at hanswered
  · have hinOrder := h.inOrder p
    have hsublist := hretries.toLane_sublist h.waits p
    rw [toLane_append] at hinOrder
    have hall : (toLane p (accepted run.retry.answers ++ run.retry.counter.waiting.map Prod.fst)) =
        toLane p (accepted run.answers) ++ (toLane p (accepted run.counter.retry.2) ++
          toLane p (run.retry.counter.waiting.map Prod.fst)) := by
      rw [Run.retry, accepted_append, toLane_append, toLane_append, List.append_assoc]
    rw [hall]
    exact ((hsublist.append_left _).filter _).trans hinOrder

/-! ## A delivery and the end -/

/-- Where an item is received, those that wait try again. -/
lemma advance_receive_of_some {b : Mailbox} {item : MailboxItem}
    (h : run.counter.mailbox.receive = (b, some item)) :
    run.advance .receive =
      ({ run with
        counter := ⟨b, run.counter.waiting⟩, returned := run.returned ++ [item] } : Run).retry := by
  simp [advance, Counter.receive, h, Run.retry]

/-- Where nothing is queued, receiving changes nothing. -/
lemma advance_receive_of_none {b : Mailbox} (h : run.counter.mailbox.receive = (b, none)) :
    run.advance .receive = run := by
  simp [advance, Counter.receive, h]

/-- When the mailbox is closed, those that wait try again. -/
lemma advance_close (run : Run) :
    run.advance .close =
      ({ run with counter := ⟨run.counter.mailbox.close, run.counter.waiting⟩ } : Run).retry := rfl

/-- Taking an item out keeps the account, before anybody tries again. -/
lemma Sound.take (h : run.Sound capacity) {b : Mailbox} {item : MailboxItem}
    (hreceive : run.counter.mailbox.receive = (b, some item)) :
    ({ run with
      counter := ⟨b, run.counter.waiting⟩, returned := run.returned ++ [item] } : Run).Sound
        capacity := by
  obtain ⟨-, -, -, -, hcapacity, -⟩ := receive_spec hreceive
  refine ⟨h.orderly.receive hreceive, hcapacity.trans h.laneCapacity_eq, h.waits, fun p => ?_,
    h.accounted, h.inOrder⟩
  have htaken := h.orderly.filter_append_contents run.returned p
  rw [hreceive] at htaken
  exact (h.conserved p).trans htaken.symm

/-- Closing the mailbox keeps the account, before anybody tries again. -/
lemma Sound.shut (h : run.Sound capacity) :
    ({ run with counter := ⟨run.counter.mailbox.close, run.counter.waiting⟩ } : Run).Sound
      capacity :=
  ⟨⟨h.orderly.sorted, h.orderly.bounded, h.orderly.single⟩, h.laneCapacity_eq, h.waits,
    h.conserved, h.accounted, h.inOrder⟩

/-- Each step keeps the account and leaves nobody beside a free place. -/
lemma sound_settled_advance (h : run.Sound capacity) (hsettled : run.Settled) (event : Event) :
    (run.advance event).Sound capacity ∧ (run.advance event).Settled := by
  cases event with
  | push item =>
    refine ⟨?_, hsettled.push item⟩
    rcases hpush : run.counter.mailbox.push item with ⟨b, result⟩
    by_cases hresult : result = .blocked
    · subst hresult
      obtain rfl := push_eq_of_blocked hpush
      exact h.push_blocked hpush
    · exact h.push_answered hsettled hpush hresult
  | receive =>
    rcases hreceive : run.counter.mailbox.receive with ⟨b, _ | item⟩
    · rw [advance_receive_of_none hreceive]
      exact ⟨h, hsettled⟩
    · rw [advance_receive_of_some hreceive]
      exact ⟨(h.take hreceive).retry, settled_retry _⟩
  | close =>
    rw [advance_close]
    exact ⟨h.shut.retry, settled_retry _⟩

/-- After any steps the account adds up, and nobody waits beside a free place. -/
lemma sound_settled_after (capacity : Nat) (events : List Event) :
    (after capacity events).Sound capacity ∧ (after capacity events).Settled := by
  rw [after]
  induction events using List.reverseRecOn with
  | nil => exact ⟨sound_start capacity, settled_start capacity⟩
  | append_singleton events event ih =>
    rw [List.foldl_append]
    exact sound_settled_advance ih.1 ih.2 event

/-- The pushes on record are the calls. -/
lemma pushes_after (capacity : Nat) (events : List Event) :
    (after capacity events).pushes = calls events := by
  rw [after]
  induction events using List.reverseRecOn with
  | nil => rfl
  | append_singleton events event ih =>
    rw [List.foldl_append, List.foldl_cons, List.foldl_nil]
    have hpushes : ∀ run : Run, (run.advance event).pushes =
        run.pushes ++ (event.pushed?.map run.next).toList := by
      intro run
      cases event <;> simp [advance, Event.pushed?]
    rw [hpushes, ih, calls, calls, List.filterMap_append, List.mapIdx_append]
    cases event <;> simp [Event.pushed?, next, ih, calls]

/-- A mailbox is closed by a step that closes it, and stays closed. -/
lemma closed_advance (run : Run) (event : Event) :
    (run.advance event).counter.mailbox.closed = true ↔
      run.counter.mailbox.closed = true ∨ event = .close := by
  cases event with
  | push item =>
    have hclosed := (push_fst_spec run.counter.mailbox item).2
    rcases hpush : run.counter.mailbox.push item with ⟨b, result⟩
    rw [hpush] at hclosed
    by_cases hresult : result = .blocked
    · subst hresult
      obtain rfl := push_eq_of_blocked hpush
      rw [advance_push_of_blocked hpush]
      simp
    · rw [advance_push_of_answered hpush hresult]
      simp [show b.closed = run.counter.mailbox.closed from hclosed]
  | receive =>
    rcases hreceive : run.counter.mailbox.receive with ⟨b, _ | item⟩
    · rw [advance_receive_of_none hreceive]
      simp
    · obtain ⟨p, -, -, -, -, hclosed⟩ := receive_spec hreceive
      rw [advance_receive_of_some hreceive, (retries_retry _).mailbox_spec.2, hclosed]
      simp
  | close =>
    rw [advance_close, (retries_retry _).mailbox_spec.2]
    simp [Mailbox.close]

/-- A mailbox is closed once a step has closed it. -/
lemma closed_after (capacity : Nat) (events : List Event) :
    (after capacity events).counter.mailbox.closed = true ↔ .close ∈ events := by
  rw [after]
  induction events using List.reverseRecOn with
  | nil => simp [start, Counter.ofCapacity, Mailbox.ofCapacity]
  | append_singleton events event ih =>
    rw [List.foldl_append, List.foldl_cons, List.foldl_nil, closed_advance, ih]
    simp [eq_comm]

/-- Closing the mailbox turns away everybody who waits. -/
lemma close_answers (counter : Counter Push) :
    counter.close.2 = counter.waiting.map fun w => (w.1, .closed) :=
  ((retries_retryEach counter.mailbox.close counter.waiting).of_closed rfl).2

/-- What is received at a mailbox where others wait is what a delivery takes. -/
lemma receive_item (counter : Counter Push) :
    counter.receive.2.1 = counter.mailbox.receive.2 := by
  rw [Counter.receive]
  rcases counter.mailbox.receive with ⟨b, _ | item⟩ <;> rfl

/-- For every size of the lanes and all steps: each push is answered once or still waits.  What was
queued was received, once, or is still in its lane, and the messages of a lane are received in the
order in which they were pushed, also if they had to wait.  Whoever asks for an item gets the first
that is there, and nothing only if there is none; from the low lane an item is only taken when the
high lane is empty.  A lane never holds more messages than it has room for, and never two requests
of which one is enough.  Whoever waits finds the lane full.  The timer is always queued until the
mailbox is closed; the closing turns away everybody who waits, and so is turned away whoever comes
later. -/
theorem keeps_order_and_loses_nothing (capacity : Nat) (events : List Event) :
    let run := after capacity events
    let mailbox := run.counter.mailbox
    (run.answers.map Prod.fst ++ run.counter.waiting.map Prod.fst).Perm (calls events) ∧
    (∀ p, ∃ received left,
      toLane p (accepted run.answers) = received ++ left ∧
      received.map Push.item = run.returned.filter (·.isHighPriority == p) ∧
      left.map Push.item = mailbox.contents p ∧
      (messages (received ++ left)).Sublist (calls events)) ∧
    run.counter.receive.2.1 = mailbox.queued.head? ∧
    (∀ item, run.counter.receive.2.1 = some item → item.isHighPriority = false →
      mailbox.high = []) ∧
    (∀ p, (mailbox.contents p).countP (· != .timer) ≤ max capacity 1) ∧
    (∀ c ∈ [Command.getAddr, .getBlocks, .getHeaders, .mempool],
      mailbox.queued.countP (·.command? == some c) ≤ 1) ∧
    (∀ w ∈ run.counter.waiting,
      max capacity 1 ≤ (mailbox.contents w.2.isHighPriority).length) ∧
    (.close ∉ events → ∀ x, (run.counter.push x .timer).2 = .queued) ∧
    (.close ∈ events →
      run.counter.waiting = [] ∧ ∀ x item, (run.counter.push x item).2 = .closed) ∧
    run.counter.close.2 = run.counter.waiting.map fun w => (w.1, .closed) := by
  intro run mailbox
  obtain ⟨hsound, hsettled⟩ := sound_settled_after capacity events
  have hcalls : run.pushes = calls events := pushes_after capacity events
  have hclosed : mailbox.closed = true ↔ .close ∈ events := closed_after capacity events
  refine ⟨hcalls ▸ hsound.accounted, fun p => ?_, (receive_item _).trans mailbox.snd_receive,
    fun item htaken hlow => ?_, fun p => ?_, hsound.orderly.single, fun w hw => ?_,
    fun hopen x => ?_, fun hclose => ⟨?_, fun x item => ?_⟩, close_answers _⟩
  · obtain ⟨received, left, hsplit, hreceived, hleft⟩ :=
      List.map_eq_append_iff.mp (hsound.conserved p)
    refine ⟨received, left, hsplit, hreceived, hleft, ?_⟩
    have hinOrder := hsound.inOrder p
    rw [toLane_append, messages_append] at hinOrder
    rw [← hsplit, ← hcalls]
    exact (List.sublist_append_left _ _).trans hinOrder
  · rw [receive_item] at htaken
    have hreceive : mailbox.receive = (mailbox.receive.1, some item) := Prod.ext rfl htaken
    obtain ⟨p, hhead, -, hempty, -⟩ := receive_spec hreceive
    have hp : item.isHighPriority = p := by
      refine hsound.orderly.sorted p item ?_
      rw [hhead]
      exact List.mem_cons_self
    exact hempty (hp.symm.trans hlow)
  · rw [← hsound.laneCapacity_eq]
    exact hsound.orderly.bounded p
  · rw [← hsound.laneCapacity_eq]
    exact (hsettled w hw).2
  · have hstillOpen : mailbox.closed = false := Bool.eq_false_iff.mpr fun h => hopen (hclosed.mp h)
    rw [Counter.push, push_timer hstillOpen]
  · rw [List.eq_nil_iff_forall_not_mem]
    intro w hw
    have hopen := (hsettled w hw).1
    rw [hclosed.mpr hclose] at hopen
    exact absurd hopen (by decide)
  · rw [Counter.push, push_of_closed (hclosed.mpr hclose)]

end Run

end Mailbox

end PeerNet
