import PeerNet.Proofs.Tracking.Arrivals

/-!
# Places left behind

A place in the arrival queue stays behind when its item is removed, and it is the removals alone
that look whether there are too many.  That is enough, because no other operation leaves a place
behind: an item that is added gets one place, and a sweep takes away at least as many places as
items (`PendingHashes.length_sweepFrom`).  After a removal there are at most 32 places more than
twice the awaited items, so what is left behind is never more than the largest number of items
awaited so far, and 32 (`PendingHashes.Tidy`).
-/

namespace PeerNet

namespace PendingHashes

variable {α : Type} [BEq α] [Hashable α]

/-- The largest number of items that were awaited at a time in the course of operations. -/
def peak (ops : List (Operation α)) : Nat :=
  (Finset.range (ops.length + 1)).sup fun n =>
    (course perform (empty : PendingHashes α) (ops.take n)).state.size

lemma peak_concat (ops : List (Operation α)) (op : Operation α) :
    peak (ops ++ [op]) =
      max (course perform (empty : PendingHashes α) (ops ++ [op])).state.size (peak ops) := by
  have hbefore : ∀ n ∈ Finset.range (ops.length + 1), (ops ++ [op]).take n = ops.take n :=
    fun n hn => List.take_append_of_le_length (Nat.lt_succ_iff.mp (Finset.mem_range.mp hn))
  rw [peak, List.length_append, List.length_singleton, Finset.range_add_one, Finset.sup_insert,
    List.take_of_length_le (by simp), peak]
  congr 1
  exact Finset.sup_congr rfl fun n hn => by rw [hbefore n hn]

/-- At most `peak` items are awaited, and no more than 32 places beyond this number are left
behind. -/
structure Tidy (peak : Nat) (p : PendingHashes α) : Prop where
  size_le : p.size ≤ peak
  places_le : p.queue.size ≤ p.size + (peak + 32)

variable {p : PendingHashes α}

/-! ## Places and items -/

/-- A place is live if it stands for something. -/
lemma isSome_standsFor? (entries : Std.HashMap α (Nat × Nat)) (place : α × Nat) :
    (standsFor? entries place).isSome = isLive entries place := by
  unfold standsFor? isLive
  cases entries[place.1]? with
  | none => rfl
  | some entry => cases hlive : entry.1 == place.2 <;> simp [hlive]

variable [LawfulBEq α]

/-- An item that is awaited has its place in the queue once. -/
lemma Sound.count_place (h : p.Sound) {a : α} {number since : Nat}
    (hentry : p.entries[a]? = some (number, since)) : p.queue.toList.count (a, number) = 1 := by
  have hnodup : p.queue.toList.Nodup := h.orderly.ordered.imp fun hlt heq =>
    absurd (congrArg Prod.snd heq) (Nat.ne_of_lt hlt)
  exact List.count_eq_one_of_mem hnodup (h.orderly.placed a number since hentry)

variable [LawfulHashable α]

/-- There are as many live places as items. -/
lemma Sound.length_filter_isLive (h : p.Sound) :
    (p.queue.toList.filter (isLive p.entries)).length = p.size := by
  rw [h.size_eq, arrivals, listing, List.length_filterMap_eq_countP, List.countP_eq_length_filter]
  simp only [isSome_standsFor?]

/-- An addition that is no new arrival changes nothing; any other gives one item one place. -/
lemma places_add (p : PendingHashes α) (a : α) (now : Nat) :
    (p.add a now).1.queue.size + p.size = p.queue.size + (p.add a now).1.size := by
  rw [add]
  split
  · rfl
  · next hnew =>
    have hsize : (p.entries.insert a (p.nextNumber, now)).size = p.entries.size + 1 := by
      rw [Std.HashMap.size_insert, if_neg (by simpa [contains] using hnew)]
    change p.queue.size + 1 + p.entries.size =
      p.queue.size + (p.entries.insert a (p.nextNumber, now)).size
    omega

/-- After a removal the queue has no more places than it is allowed. -/
lemma Sound.places_remove (h : p.Sound) {a : α} (hawaited : p.contains a = true) :
    (p.remove a).1.queue.size ≤ queueBound (p.remove a).1.size := by
  have hremoved := h.remove a
  rw [PendingHashes.remove, if_pos hawaited] at hremoved ⊢
  dsimp only at hremoved ⊢
  split_ifs at hremoved ⊢ with hmany
  · -- The queue was cleaned up: every place that is left is live.
    have hlive := hremoved.length_filter_isLive
    rw [Queue.toList_filter, List.filter_filter] at hlive
    simp only [Bool.and_self] at hlive
    rw [Queue.size_eq_length, Queue.toList_filter, hlive, queueBound]
    omega
  · exact Nat.le_of_not_lt hmany

/-- A sweep takes away no more items than places. -/
lemma length_sweepFrom (now timeout : Nat) (queue : List (α × Nat))
    (entries : Std.HashMap α (Nat × Nat)) (expired : Nat) :
    let swept := sweepFrom now timeout queue entries expired
    swept.1.length + entries.size ≤ queue.length + swept.2.1.size := by
  induction queue generalizing entries expired with
  | nil => exact Nat.le_refl _
  | cons place rest ih =>
    obtain ⟨a, place⟩ := place
    rw [sweepFrom, List.length_cons]
    split
    · have hrest := ih entries expired
      dsimp only at hrest ⊢
      omega
    · split_ifs
      · have hrest := ih entries expired
        dsimp only at hrest ⊢
        omega
      · exact Nat.le_refl _
      · have hrest := ih (entries.erase a) (expired + 1)
        have herase : entries.size ≤ (entries.erase a).size + 1 :=
          Std.HashMap.size_le_size_erase
        dsimp only at hrest ⊢
        omega

/-! ## Operations -/

/-- An operation leaves no more behind than the items that were ever awaited allow for. -/
lemma Tidy.perform {peak peak' : Nat} (h : p.Tidy peak) (hsound : p.Sound) (op : Operation α)
    (hpeak : peak ≤ peak') (hsize : (p.perform op).1.size ≤ peak') :
    (p.perform op).1.Tidy peak' := by
  refine ⟨hsize, ?_⟩
  have hplaces := h.places_le
  cases op with
  | add a now =>
    have hadd := p.places_add a now
    change (p.add a now).1.queue.size ≤ (p.add a now).1.size + (peak' + 32)
    omega
  | remove a =>
    change (p.remove a).1.size ≤ peak' at hsize
    change (p.remove a).1.queue.size ≤ (p.remove a).1.size + (peak' + 32)
    cases hawaited : p.contains a with
    | true =>
      have hremove := hsound.places_remove hawaited
      rw [queueBound] at hremove
      omega
    | false =>
      rw [PendingHashes.remove, if_neg (by simp [hawaited])]
      dsimp only
      omega
  | contains a =>
    change p.queue.size ≤ p.size + (peak' + 32)
    omega
  | sweep now timeout =>
    have hsweep := length_sweepFrom now timeout p.queue.toList p.entries 0
    dsimp only at hsweep
    rw [← Queue.size_eq_length] at hsweep
    change (sweepFrom now timeout p.queue.toList p.entries 0).1.length ≤
      (sweepFrom now timeout p.queue.toList p.entries 0).2.1.size + (peak' + 32)
    change p.queue.size ≤ p.entries.size + (peak + 32) at hplaces
    omega

/-- After any operations the places left behind are few against what was awaited at most. -/
lemma tidy_course (ops : List (Operation α)) :
    (course perform (empty : PendingHashes α) ops).state.Tidy (peak ops) := by
  induction ops using List.reverseRecOn with
  | nil => exact ⟨Nat.le_of_eq Std.HashMap.size_empty, Nat.zero_le _⟩
  | append_singleton ops op ih =>
    have hsize := Nat.le_max_left
      (course perform (empty : PendingHashes α) (ops ++ [op])).state.size (peak ops)
    rw [← peak_concat, course_concat] at hsize
    rw [course_concat]
    refine ih.perform (sound_course ops).1 op ?_ hsize
    rw [peak_concat]
    exact Nat.le_max_right _ _

/-- Whatever is done to a collection that is empty at first, and whenever: each awaited item has its
place in the arrival queue, under its present number, exactly once; and however many places are left
behind, the queue is never longer than twice the largest number of items awaited so far, and 32.
Directly after an item was removed it is not longer than twice the number of items still awaited,
and
32. -/
theorem queue_bounded (ops : List (Operation α)) :
    let pending := (course perform (empty : PendingHashes α) ops).state
    (∀ a number since, pending.entries[a]? = some (number, since) →
      pending.queue.toList.count (a, number) = 1) ∧
    pending.queue.size ≤ 2 * peak ops + 32 ∧
    ∀ a, (pending.remove a).2 = true →
      (pending.remove a).1.queue.size ≤ 2 * (pending.remove a).1.size + 32 := by
  intro pending
  have hsound : pending.Sound := (sound_course ops).1
  have htidy : pending.Tidy (peak ops) := tidy_course ops
  refine ⟨fun a number since hentry => hsound.count_place hentry, ?_, fun a hremoved => ?_⟩
  · have hsize := htidy.size_le
    have hplaces := htidy.places_le
    omega
  · rw [remove_snd] at hremoved
    exact hsound.places_remove hremoved

/-- The peak, read off the plain list. -/
lemma peak_eq (ops : List (Operation α)) :
    peak ops = (Finset.range (ops.length + 1)).sup fun n =>
      (course performOnList ([] : Arrivals α) (ops.take n)).state.length := by
  refine Finset.sup_congr rfl fun n _ => ?_
  obtain ⟨hsound, hlist, -⟩ := sound_course (ops.take n)
  rw [hsound.size_eq, hlist]

/-- Items that come and go in turn leave few places behind, however many they are. -/
theorem queue_bounded_of_turns :
    let turns : List (Operation Nat) := (List.range 50).flatMap fun i => [.add i 0, .remove i]
    let ops := turns ++ [.add 7 0]
    let pending := (course perform empty ops).state
    peak ops = 1 ∧ pending.queue.size ≤ 34 ∧
    (∃ number, pending.entries[7]? = some (number, 0) ∧
      pending.queue.toList.count (7, number) = 1) ∧
    (pending.remove 7).2 = true ∧
    (pending.remove 7).1.queue.size ≤ 2 * (pending.remove 7).1.size + 32 := by
  intro turns ops
  obtain ⟨hsound, hlist, -⟩ := sound_course ops
  obtain ⟨hplace, hlength, hleft⟩ := queue_bounded ops
  generalize (course perform (empty : PendingHashes Nat) ops).state = pending at *
  have hpeak : peak ops = 1 := by
    rw [peak_eq]
    decide +kernel
  have hsince : pending.since? 7 = some 0 := by
    rw [← hsound.mem_arrivals, hlist]
    decide +kernel
  have hremoved : (pending.remove 7).2 = true := by
    rw [remove_snd, contains_eq_isSome, hsince]
    rfl
  obtain ⟨⟨number, since⟩, hentry, rfl⟩ := Option.map_eq_some_iff.mp hsince
  rw [hpeak] at hlength
  exact ⟨hpeak, hlength, ⟨number, hentry, hplace 7 number 0 hentry⟩, hremoved, hleft 7 hremoved⟩

end PendingHashes

end PeerNet
