import PeerNet.Proofs.Mailbox.Lane

/-!
# Waiting pushes

After a delivery, and when the mailbox is closed, everybody who waits tries again, the oldest first
(`Mailbox.Retries`).  Whoever goes on waiting afterwards finds the lane full (`Retries.full`), and
whoever is queued comes before those of the same lane who go on waiting and were behind
(`Retries.toLane_sublist`): once a lane is full, no message behind gets into it.
-/

namespace PeerNet

namespace Mailbox

/-! ## Trying again -/

section Retries

variable {σ : Type}

/-- How waiting pushes are tried again, one after the other. -/
inductive Retries : Mailbox → List (σ × MailboxItem) → Mailbox → List (σ × MailboxItem) →
    List (σ × PushResult) → Prop
  | nil (b : Mailbox) : Retries b [] b [] []
  | blocked {b b' : Mailbox} {who : σ} {item : MailboxItem} {rest waiting : List (σ × MailboxItem)}
    {answers : List (σ × PushResult)} (hpush : b.push item = (b, .blocked))
    (hrest : Retries b rest b' waiting answers) :
    Retries b ((who, item) :: rest) b' ((who, item) :: waiting) answers
  | answered {b b₁ b' : Mailbox} {who : σ} {item : MailboxItem} {result : PushResult}
    {rest waiting : List (σ × MailboxItem)} {answers : List (σ × PushResult)}
    (hpush : b.push item = (b₁, result)) (hresult : result ≠ .blocked)
    (hrest : Retries b₁ rest b' waiting answers) :
    Retries b ((who, item) :: rest) b' waiting ((who, result) :: answers)

/-- A push that is blocked leaves the mailbox as it is. -/
lemma push_eq_of_blocked {b b' : Mailbox} {item : MailboxItem}
    (h : b.push item = (b', .blocked)) : b' = b := by
  have hpush := pushes_push b item
  rw [h] at hpush
  cases hpush
  rfl

/-- Whatever waits at whatever mailbox, it is tried again one after the other. -/
lemma retries_retryEach (b : Mailbox) (waiting : List (σ × MailboxItem)) :
    Retries b waiting (Counter.retryEach b waiting).1 (Counter.retryEach b waiting).2.1
      (Counter.retryEach b waiting).2.2 := by
  induction waiting generalizing b with
  | nil => exact .nil b
  | cons w rest ih =>
    obtain ⟨who, item⟩ := w
    rcases hpush : b.push item with ⟨b₁, result⟩
    have hrest := ih b₁
    by_cases hresult : result = .blocked
    · subst hresult
      obtain rfl := push_eq_of_blocked hpush
      have hstep : Counter.retryEach b₁ ((who, item) :: rest) =
          ((Counter.retryEach b₁ rest).1, (who, item) :: (Counter.retryEach b₁ rest).2.1,
            (Counter.retryEach b₁ rest).2.2) := by
        rw [Counter.retryEach, hpush]
      rw [hstep]
      exact .blocked hpush hrest
    · have hstep : Counter.retryEach b ((who, item) :: rest) =
          ((Counter.retryEach b₁ rest).1, (Counter.retryEach b₁ rest).2.1,
            (who, result) :: (Counter.retryEach b₁ rest).2.2) := by
        rw [Counter.retryEach, hpush]
        cases result <;> first | rfl | exact absurd rfl hresult
      rw [hstep]
      exact .answered hpush hresult hrest

namespace Retries

variable {b b' : Mailbox} {waiting waiting' : List (σ × MailboxItem)}
  {answers : List (σ × PushResult)}

/-- What every push keeps is kept. -/
lemma preserves {P : Mailbox → Prop} (hP : ∀ b item, P b → P (b.push item).1)
    (h : Retries b waiting b' waiting' answers) (hb : P b) : P b' := by
  induction h with
  | nil b => exact hb
  | blocked hpush _ ih => exact ih hb
  | @answered b _ _ _ item _ _ _ _ hpush _ _ ih =>
    have hnext := hP b item hb
    rw [hpush] at hnext
    exact ih hnext

/-- The size of the lanes and the end of the mailbox stay as they are. -/
lemma mailbox_spec (h : Retries b waiting b' waiting' answers) :
    b'.laneCapacity = b.laneCapacity ∧ b'.closed = b.closed :=
  h.preserves
    (P := fun other => other.laneCapacity = b.laneCapacity ∧ other.closed = b.closed)
    (fun other item hother =>
      ⟨(push_fst_spec other item).1.trans hother.1, (push_fst_spec other item).2.trans hother.2⟩)
    ⟨rfl, rfl⟩

/-- Nothing leaves a lane. -/
lemma length_contents_le (h : Retries b waiting b' waiting' answers) (p : Bool) :
    (b.contents p).length ≤ (b'.contents p).length := by
  refine h.preserves (P := fun other => (b.contents p).length ≤ (other.contents p).length)
    (fun other item hother => ?_) le_rfl
  rw [contents_push, List.length_append]
  omega

/-- Whoever goes on waiting has waited before. -/
lemma waiting_sublist (h : Retries b waiting b' waiting' answers) : waiting'.Sublist waiting := by
  induction h with
  | nil b => exact .slnil
  | blocked _ _ ih => exact ih.cons_cons _
  | answered _ _ _ ih => exact ih.cons _

/-- Everybody is answered or goes on waiting. -/
lemma perm (h : Retries b waiting b' waiting' answers) :
    (answers.map Prod.fst ++ waiting'.map Prod.fst).Perm (waiting.map Prod.fst) := by
  induction h with
  | nil b => exact .nil
  | blocked _ _ ih => exact List.perm_middle.trans (ih.cons _)
  | answered _ _ _ ih => exact ih.cons _

/-- Whoever goes on waiting finds the lane full. -/
lemma full (h : Retries b waiting b' waiting' answers) :
    ∀ w ∈ waiting', b'.closed = false ∧
      b'.laneCapacity ≤ (b'.contents w.2.isHighPriority).length := by
  induction h with
  | nil b => exact List.forall_mem_nil _
  | @blocked b _ who item _ _ _ hpush hrest ih =>
    refine List.forall_mem_cons.mpr ⟨?_, ih⟩
    obtain ⟨hcapacity, hclosed⟩ := hrest.mailbox_spec
    have hpushes := pushes_push b item
    rw [hpush] at hpushes
    cases hpushes with
    | blocked hopen _ hfull =>
      rw [hcapacity, hclosed]
      exact ⟨hopen, hfull.trans (hrest.length_contents_le _)⟩
  | answered _ _ _ ih => exact ih

/-- A closed mailbox turns everybody away. -/
lemma of_closed (h : Retries b waiting b' waiting' answers) (hclosed : b.closed = true) :
    waiting' = [] ∧ answers = waiting.map fun w => (w.1, .closed) := by
  induction h with
  | nil b => exact ⟨rfl, rfl⟩
  | blocked hpush _ _ =>
    rw [push_of_closed hclosed] at hpush
    cases hpush
  | answered hpush _ _ ih =>
    rw [push_of_closed hclosed] at hpush
    cases hpush
    obtain ⟨hwaiting, hanswers⟩ := ih hclosed
    rw [hwaiting, hanswers]
    exact ⟨rfl, rfl⟩

end Retries

end Retries

/-! ## Pushes by number -/

/-- A push, with the number of those before it. -/
structure Push where
  number : Nat
  item : MailboxItem

/-- The pushes that were answered `queued`, in the order of the answers. -/
def accepted (answers : List (Push × PushResult)) : List Push :=
  answers.filterMap fun (x, result) => if result = .queued then some x else none

lemma accepted_append (answers more : List (Push × PushResult)) :
    accepted (answers ++ more) = accepted answers ++ accepted more := List.filterMap_append

lemma accepted_cons (x : Push) (result : PushResult) (answers : List (Push × PushResult)) :
    accepted ((x, result) :: answers) =
      if result = .queued then x :: accepted answers else accepted answers := by
  rw [accepted, List.filterMap_cons]
  by_cases hresult : result = .queued <;> simp [accepted, hresult]

/-- The pushes to the lane of a priority. -/
def toLane (p : Bool) (pushes : List Push) : List Push :=
  pushes.filter (·.item.isHighPriority == p)

lemma toLane_append (p : Bool) (xs ys : List Push) :
    toLane p (xs ++ ys) = toLane p xs ++ toLane p ys := List.filter_append ..

lemma toLane_cons (p : Bool) (x : Push) (xs : List Push) :
    toLane p (x :: xs) = if x.item.isHighPriority = p then x :: toLane p xs else toLane p xs := by
  rw [toLane, List.filter_cons]
  simp [toLane]

/-- A single answer brings something into a lane if the push was queued, and is for this lane. -/
lemma toLane_accepted_singleton (p : Bool) (x : Push) (result : PushResult) :
    toLane p (accepted [(x, result)]) =
      if result = .queued ∧ x.item.isHighPriority = p then [x] else [] := by
  rw [accepted_cons]
  by_cases hqueued : result = .queued
  · rw [if_pos hqueued, toLane_cons]
    by_cases hp : x.item.isHighPriority = p <;> simp [hqueued, hp, accepted, toLane]
  · simp [hqueued, accepted, toLane]

namespace Retries

variable {b b' : Mailbox} {waiting waiting' : List (Push × MailboxItem)}
  {answers : List (Push × PushResult)}

/-- What is queued stands behind what was in the lane, in the order of the answers. -/
lemma contents_eq (h : Retries b waiting b' waiting' answers)
    (hitems : ∀ w ∈ waiting, w.1.item = w.2) (p : Bool) :
    b'.contents p = b.contents p ++ (toLane p (accepted answers)).map Push.item := by
  induction h with
  | nil b => exact (List.append_nil _).symm
  | blocked _ _ ih => exact ih (List.forall_mem_cons.mp hitems).2
  | @answered b b₁ _ who item result _ _ answers hpush _ _ ih =>
    obtain ⟨hitem, hrest⟩ := List.forall_mem_cons.mp hitems
    have hcontents := contents_push b item p
    rw [hpush] at hcontents
    rw [ih hrest, hcontents, accepted_cons, List.append_assoc]
    congr 1
    by_cases hresult : result = .queued
    · rw [if_pos hresult, toLane_cons, show who.item = item from hitem]
      by_cases hp : item.isHighPriority = p <;> simp [hresult, hp, show who.item = item from hitem]
    · simp [hresult]

/-- Into a full lane no message is put. -/
lemma toLane_accepted_of_full (h : Retries b waiting b' waiting' answers)
    (hitems : ∀ w ∈ waiting, w.1.item = w.2 ∧ w.2 ≠ .timer) {p : Bool}
    (hfull : b.laneCapacity ≤ (b.contents p).length) : toLane p (accepted answers) = [] := by
  induction h with
  | nil b => rfl
  | blocked _ _ ih => exact ih (List.forall_mem_cons.mp hitems).2 hfull
  | @answered b b₁ _ who item result _ _ answers hpush _ _ ih =>
    obtain ⟨⟨hitem, hmessage⟩, hrest⟩ := List.forall_mem_cons.mp hitems
    have hcontents := contents_push b item p
    have hcapacity := (push_fst_spec b item).1
    rw [hpush] at hcontents hcapacity
    have hfull₁ : b₁.laneCapacity ≤ (b₁.contents p).length := by
      rw [hcapacity, hcontents, List.length_append]
      omega
    rw [accepted_cons]
    split_ifs with hresult
    · rw [toLane_cons, ih hrest hfull₁, if_neg]
      rintro hp
      have hpushes := pushes_push b item
      rw [hpush, hresult] at hpushes
      cases hpushes with
      | queued _ _ hroom =>
        rcases hasRoom_iff.mp hroom with htimer | hroom
        · exact hmessage htimer
        · rw [show item = who.item from hitem.symm, hp] at hroom
          omega
    · exact ih hrest hfull₁

/-- In each lane those that are queued, followed by those that go on waiting, keep the order in
which they waited. -/
lemma toLane_sublist (h : Retries b waiting b' waiting' answers)
    (hitems : ∀ w ∈ waiting, w.1.item = w.2 ∧ w.2 ≠ .timer) (p : Bool) :
    (toLane p (accepted answers) ++ toLane p (waiting'.map Prod.fst)).Sublist
      (toLane p (waiting.map Prod.fst)) := by
  induction h with
  | nil b => exact .slnil
  | @blocked b _ who item _ _ answers hpush hrest ih =>
    obtain ⟨⟨hitem, -⟩, hothers⟩ := List.forall_mem_cons.mp hitems
    rw [List.map_cons, List.map_cons, toLane_cons, toLane_cons]
    split_ifs with hp
    · -- The lane is full, so nobody behind is queued in it.
      have hpushes := pushes_push b item
      rw [hpush] at hpushes
      cases hpushes with
      | blocked _ _ hfull =>
        rw [show item = who.item from hitem.symm, hp] at hfull
        have hnone := hrest.toLane_accepted_of_full hothers hfull
        have hsublist := ih hothers
        rw [hnone, List.nil_append] at hsublist ⊢
        exact hsublist.cons_cons _
    · exact ih hothers
  | @answered _ _ _ who _ result _ _ _ _ _ _ ih =>
    obtain ⟨-, hothers⟩ := List.forall_mem_cons.mp hitems
    rw [List.map_cons, accepted_cons, toLane_cons]
    split_ifs with hresult hp hp
    · rw [toLane_cons, if_pos hp, List.cons_append]
      exact (ih hothers).cons_cons _
    · rw [toLane_cons, if_neg hp]
      exact ih hothers
    · exact (ih hothers).cons _
    · exact ih hothers

end Retries

end Mailbox

end PeerNet
