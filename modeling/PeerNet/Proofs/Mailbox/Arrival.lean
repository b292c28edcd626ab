import PeerNet.Proofs.Mailbox.Lane

/-!
# The items of a mailbox in the order of their arrival

A mailbox delivers its items in another order than that in which they arrived, but not in any order:
what it holds is a list of items, split into the lanes (`Mailbox.Holds`), a push puts an item at the
end of this list, and a delivery takes one out that only items of low priority stand before, and
none at all unless it is of high priority itself (`Holds.receive`).  About the commands that wait
this is all there is to know (`Overtakes`).
-/

namespace PeerNet

namespace Mailbox

/-- A mailbox holds items that arrived in the given order. -/
def Holds (b : Mailbox) (items : List MailboxItem) : Prop :=
  ∀ p, b.contents p = items.filter (·.isHighPriority == p)

/-- The commands of items. -/
def commands (items : List MailboxItem) : List Command := items.filterMap MailboxItem.command?

/-- A command may be taken before others: no more than those of low priority wait longer, and if it
is of low priority itself none does. -/
structure Overtakes (c : Command) (before : List Command) : Prop where
  low : ∀ d ∈ before, d ∉ MailboxItem.highPriorityCommands
  first : c ∉ MailboxItem.highPriorityCommands → before = []

variable {b : Mailbox} {items : List MailboxItem} {item : MailboxItem}

lemma commands_append (items more : List MailboxItem) :
    commands (items ++ more) = commands items ++ commands more := List.filterMap_append

lemma commands_cons (item : MailboxItem) (items : List MailboxItem) :
    commands (item :: items) = item.command?.toList ++ commands items := by
  rw [commands, List.filterMap_cons]
  cases item.command? <;> rfl

/-- A new mailbox holds nothing, before anything arrives. -/
lemma holds_ofCapacity (capacity : Nat) : (ofCapacity capacity).Holds [] := by
  intro p
  cases p <;> rfl

/-- In a mailbox with empty lanes nothing waits. -/
lemma Holds.eq_nil (h : b.Holds items) (hempty : b.queued = []) : items = [] := by
  rw [queued_perm_contents, List.append_eq_nil_iff, h, h, List.filter_eq_nil_iff,
    List.filter_eq_nil_iff] at hempty
  rw [List.eq_nil_iff_forall_not_mem]
  intro item hitem
  have hhigh := hempty.1 item hitem
  have hlow := hempty.2 item hitem
  cases hpriority : item.isHighPriority <;> simp [hpriority] at hhigh hlow

/-- A push adds an item to those that wait, or it does not change the mailbox. -/
lemma Holds.push (h : b.Holds items) (item : MailboxItem) :
    (b.push item).1.Holds (items ++ if (b.push item).2 = .queued then [item] else []) := by
  intro p
  rw [contents_push, h p, List.filter_append]
  by_cases hqueued : (b.push item).2 = .queued <;> cases hp : item.isHighPriority == p <;>
    simp_all

/-- The timer is no command. -/
lemma Holds.push_timer (h : b.Holds items) :
    ∃ items', (b.push .timer).1.Holds items' ∧ commands items' = commands items := by
  refine ⟨_, h.push .timer, ?_⟩
  rw [commands_append]
  split <;> exact List.append_nil _

/-- A message is redundant if it is a request of which one is enough, and one waits. -/
lemma command_of_isRedundant {m : Message}
    (h : (MailboxItem.message m).isRedundant items = true) :
    m.command ∈ MailboxItem.deduplicatedCommands := by
  rw [MailboxItem.isRedundant, MailboxItem.command?, Option.any_some, Bool.and_eq_true] at h
  exact List.contains_iff_mem.mp h.1

/-- An item that is dropped is a request of which one is enough. -/
lemma command_of_dropped {m : Message} (h : (b.push (.message m)).2 = .dropped) :
    m.command ∈ MailboxItem.deduplicatedCommands := by
  have hpush := pushes_push b (.message m)
  generalize (b.push (.message m)).1 = b', (b.push (.message m)).2 = result at hpush h
  subst h
  cases hpush with
  | dropped hopen hredundant => exact command_of_isRedundant hredundant

/-- A delivery takes an item that only items of low priority arrived before, and none if it is of
low priority itself. -/
lemma Holds.of_receive (h : b.Holds items) {b' : Mailbox} (hreceive : b.receive = (b', some item)) :
    ∃ before after, items = before ++ item :: after ∧ b'.Holds (before ++ after) ∧
      (∀ i ∈ before, i.isHighPriority = false) ∧ (item.isHighPriority = false → before = []) := by
  obtain ⟨p, htaken, hother, hlow, -, -⟩ := receive_spec hreceive
  rw [h p] at htaken
  obtain ⟨before, after, rfl, hbefore, hitem, hafter⟩ := List.filter_eq_cons_iff.mp htaken
  have hitem : item.isHighPriority = p := eq_of_beq hitem
  have hpriority : ∀ i ∈ before, i.isHighPriority = !p := by
    intro i hi
    have hne := hbefore i hi
    cases hi : i.isHighPriority <;> cases p <;> simp_all
  have hnone : p = false → before = [] := by
    rintro rfl
    have hempty : b.contents true = [] := hlow rfl
    rw [h true, List.filter_eq_nil_iff] at hempty
    rw [List.eq_nil_iff_forall_not_mem]
    intro i hi
    have hhigh := hempty i (List.mem_append_left _ hi)
    rw [hpriority i hi] at hhigh
    exact hhigh rfl
  refine ⟨before, after, rfl, fun q => ?_, ?_, hitem ▸ hnone⟩
  · rcases Bool.eq_or_eq_not q p with rfl | rfl
    · rw [List.filter_append, hafter, List.filter_eq_nil_iff.mpr hbefore, List.nil_append]
    · rw [← hother, h (!p), List.filter_append, List.filter_append, List.filter_cons_of_neg]
      rw [hitem]
      simp
  · cases p with
    | true => exact hpriority
    | false =>
      rw [hnone rfl]
      exact List.forall_mem_nil _

/-- Of the commands that wait a delivery takes one that overtakes those before it, if it takes a
command at all. -/
lemma Holds.receive (h : b.Holds items) {b' : Mailbox} (hreceive : b.receive = (b', some item)) :
    ∃ items' before after, b'.Holds items' ∧ commands items' = before ++ after ∧
      commands items = before ++ (item.command?.toList ++ after) ∧
      ∀ c, item.command? = some c → Overtakes c before := by
  obtain ⟨before, after, rfl, hholds, hlow, hfirst⟩ := h.of_receive hreceive
  refine ⟨before ++ after, commands before, commands after, hholds, commands_append .., ?_,
    fun c hc => ⟨fun d hd => ?_, fun hc' => ?_⟩⟩
  · rw [commands_append, commands_cons]
  · obtain ⟨i, hi, hcommand⟩ := List.mem_filterMap.mp hd
    have hpriority := hlow i hi
    rw [MailboxItem.isHighPriority, hcommand, Option.any_some] at hpriority
    exact fun hmem => Bool.eq_false_iff.mp hpriority (List.contains_iff_mem.mpr hmem)
  · have hpriority : item.isHighPriority = false := by
      rw [MailboxItem.isHighPriority, hc, Option.any_some]
      exact Bool.eq_false_of_not_eq_true fun hmem => hc' (List.contains_iff_mem.mp hmem)
    rw [hfirst hpriority]
    rfl

end Mailbox

end PeerNet
