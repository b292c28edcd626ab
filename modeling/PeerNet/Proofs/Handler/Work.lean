import Mathlib
import PeerNet.Ledger.Memory
import PeerNet.Proofs.Handler.Tracking
import PeerNet.Proofs.Tracking.PendingHashes

/-!
# Work that is handed out once

What a peer announces and what is news becomes work for it, and is awaited from then on.  While a
hash is awaited it is no news.  It stops being awaited when the object is delivered, and then the
peer is known to have it, or when the timer finds that it was awaited for too long.  So a hash that
is handed out again has been given up in between, or has been delivered and forgotten since.

`Fate` says what a call does to one hash; the rest is about the turns of a run, in order.
-/

namespace PeerNet

namespace Handler

/-- The hashes that an answer hands out as work. -/
def Answer.handedOut (a : Answer) : List Hash :=
  a.reports.flatMap fun
    | .newTasks l => l.hashes
    | _ => []

/-- Where no new tasks are reported, no work is handed out. -/
lemma handedOut_eq_nil {a : Answer} (h : ∀ l, .newTasks l ∉ a.reports) : a.handedOut = [] := by
  rw [Answer.handedOut, List.flatMap_eq_nil_iff]
  intro report hreport
  cases report with
  | newTasks l => exact absurd hreport (h l)
  | _ => rfl

/-! ## Announcements by the peer -/

section Await

variable (now : Nat)

/-- Hashes are awaited one after the other, and handed out if they were not awaited yet. -/
lemma awaitEach_cons (pending : PendingHashes Hash) (hash : Hash) (rest : List Hash) :
    awaitEach now pending (hash :: rest) =
      ((awaitEach now (pending.add hash now).1 rest).1,
        (if pending.contains hash then [] else [hash]) ++
          (awaitEach now (pending.add hash now).1 rest).2) := by
  have hnew := pending.add_snd hash now
  rw [awaitEach]
  split
  · next pending' hadd =>
    rw [hadd] at hnew ⊢
    rw [if_neg (by simpa using hnew)]
    rfl
  · next pending' hadd =>
    rw [hadd] at hnew ⊢
    rw [if_pos (by simpa using hnew)]
    rfl

/-- Every one of the hashes is awaited from now on, or from earlier on. -/
lemma since?_awaitEach (x : Hash) (hashes : List Hash) (pending : PendingHashes Hash) :
    (awaitEach now pending hashes).1.since? x =
      if x ∈ hashes then (pending.since? x).or (some now) else pending.since? x := by
  induction hashes generalizing pending with
  | nil => rfl
  | cons hash rest ih =>
    rw [awaitEach_cons, ih]
    by_cases hx : hash = x
    · subst hx
      rw [PendingHashes.since?_add_self, Option.or_assoc, Option.or_self, ite_self,
        if_pos List.mem_cons_self]
    · rw [PendingHashes.since?_add_of_ne _ hx]
      simp [Ne.symm hx]

/-- Of hashes that are taken up one after the other, those are left that are not awaited yet, each
where it first comes. -/
lemma awaitEach_snd (hashes : List Hash) (pending : PendingHashes Hash) :
    (awaitEach now pending hashes).2 = (hashes.filter fun x => !pending.contains x).eraseDups := by
  induction hashes generalizing pending with
  | nil => rfl
  | cons hash rest ih =>
    rw [awaitEach_cons]
    dsimp only
    rw [ih]
    cases hawaited : pending.contains hash with
    | true =>
      -- Nothing changes, neither what is awaited nor what is left.
      have hsame : ∀ x, (pending.add hash now).1.contains x = pending.contains x := by
        intro x
        rw [PendingHashes.contains_add]
        by_cases hx : hash = x
        · rw [← hx, hawaited, Bool.true_or]
        · rw [beq_eq_false_iff_ne.mpr hx, Bool.or_false]
      simp [hsame, hawaited]
    | false =>
      -- The rest is looked at as if this hash had been awaited all along.
      have hothers : ∀ x, (!(pending.add hash now).1.contains x) =
          (!x == hash && !pending.contains x) := by
        intro x
        rw [PendingHashes.contains_add, Bool.not_or, Bool.and_comm, BEq.comm]
      rw [List.filter_cons_of_pos (by rw [hawaited, Bool.not_false]), List.eraseDups_cons,
        List.filter_filter]
      simp only [hothers]
      rfl

/-- What is handed out is what was to be awaited and was not so yet. -/
lemma mem_awaitEach (x : Hash) (hashes : List Hash) (pending : PendingHashes Hash) :
    x ∈ (awaitEach now pending hashes).2 ↔ x ∈ hashes ∧ pending.since? x = none := by
  rw [awaitEach_snd, List.mem_eraseDups, List.mem_filter, PendingHashes.since?_eq_none_iff,
    Bool.not_eq_true']

/-- Each is taken up once. -/
lemma nodup_awaitEach (hashes : List Hash) (pending : PendingHashes Hash) :
    (awaitEach now pending hashes).2.Nodup := by
  induction hashes generalizing pending with
  | nil => exact List.nodup_nil
  | cons hash rest ih =>
    rw [awaitEach_cons]
    split
    · exact ih _
    · refine List.nodup_cons.mpr ⟨fun hmem => ?_, ih _⟩
      have hnone := ((mem_awaitEach now hash rest _).mp hmem).2
      rw [PendingHashes.since?_add_self] at hnone
      simp at hnone

end Await

/-- What an announcement by the peer comes to. -/
lemma onInv_eq (h : Handler) (ledger : Ledger) (now : Nat) (l : HashList) :
    let taken := awaitEach now h.pending (l.hashes.filter (h.isNews ledger l.kind))
    (h.onInv ledger now l).handler = { h with pending := taken.1 } ∧
      ∀ events announcement violation,
        (Answer.mk events (h.onInv ledger now l).reports announcement violation).handedOut =
          taken.2 := by
  intro taken
  rw [onInv]
  dsimp only
  split
  · next hnone => exact ⟨rfl, fun _ _ _ => hnone.symm⟩
  · exact ⟨rfl, fun _ _ _ => List.append_nil _⟩

/-! ## One call and one hash -/

/-- What becomes of a hash in the course of a call. -/
inductive Fate (h : Handler) (x : Hash) : Call → Handler → Answer → Prop
  /-- It is awaited as before. -/
  | kept {c : Call} {h' : Handler} {a : Answer} (hsince : h'.pending.since? x = h.pending.since? x)
    (hwork : x ∉ a.handedOut) : Fate h x c h' a
  /-- It is handed out, and awaited from now on. -/
  | handedOut {ledger : Ledger} {moment : Moment} {l : HashList} {h' : Handler} {a : Answer}
    (hbefore : h.pending.since? x = none) (hunknown : h.known.contains x = false)
    (hafter : h'.pending.since? x = some moment.now) (hwork : x ∈ a.handedOut) :
    Fate h x (.handle ledger moment (.message (.inv l))) h' a
  /-- It was awaited for too long. -/
  | expired {ledger : Ledger} {moment : Moment} {h' : Handler} {a : Answer} (since : Nat)
    (hbefore : h.pending.since? x = some since) (hlate : h.pendingTimeout < moment.now - since)
    (hafter : h'.pending.since? x = none) (hwork : x ∉ a.handedOut) :
    Fate h x (.handle ledger moment .timer) h' a
  /-- It is delivered, and awaited no more. -/
  | delivered {c : Call} {h' : Handler} {a : Answer} (inventory : Inventory)
    (hdelivered : c.delivered? h.state = some inventory) (hhash : inventory.hash = x)
    (hknown : h'.known.contains x = true) (hafter : h'.pending.since? x = none)
    (hwork : x ∉ a.handedOut) : Fate h x c h' a

/-- A hash is handed out, expires or is delivered in the course of a call, or is left alone. -/
lemma fate_call (h : Handler) (x : Hash) (c : Call) : h.Fate x c (h.call c).1 (h.call c).2 := by
  have htracks := h.tracks_call c
  generalize (h.call c).1 = h', (h.call c).2 = a at htracks ⊢
  cases htracks with
  | untouched hknown hsent hpending htimeout hannouncement hreports hdelivered hrequested =>
    refine .kept (by rw [hpending]) ?_
    rw [handedOut_eq_nil hreports]
    exact List.not_mem_nil
  | announced kind hash hready hnode hsent hnew => exact .kept rfl List.not_mem_nil
  | requested ledger moment l hready => exact .kept rfl List.not_mem_nil
  | delivered inventory hdelivered =>
    by_cases hx : inventory.hash = x
    · refine .delivered inventory hdelivered hx ?_ ?_ List.not_mem_nil
      · rw [← hx]
        exact FifoSet.contains_add _ _
      · rw [← hx]
        exact PendingHashes.since?_remove_self _ _
    · exact .kept (PendingHashes.since?_remove_of_ne _ hx) List.not_mem_nil
  | offered ledger moment l hready =>
    obtain ⟨hhandler, hwork⟩ := onInv_eq h ledger moment.now l
    have htaken := mem_awaitEach moment.now x
      (l.hashes.filter (h.isNews ledger l.kind)) h.pending
    have hsince := since?_awaitEach moment.now x
      (l.hashes.filter (h.isNews ledger l.kind)) h.pending
    by_cases hmem : x ∈ (awaitEach moment.now h.pending
        (l.hashes.filter (h.isNews ledger l.kind))).2
    · obtain ⟨hoffered, hbefore⟩ := htaken.mp hmem
      have hnews : h.isNews ledger l.kind x = true := List.of_mem_filter hoffered
      refine .handedOut hbefore ?_ ?_ ?_
      · rw [isNews, Bool.and_eq_true, Bool.and_eq_true, Bool.and_eq_true] at hnews
        simpa using hnews.1.1.2
      · rw [hhandler, hsince, if_pos hoffered, hbefore, Option.none_or]
      · rw [hwork]
        exact hmem
    · refine .kept ?_ ?_
      · rw [hhandler, hsince]
        split_ifs with hoffered
        · cases hbefore : h.pending.since? x with
          | none => exact absurd (htaken.mpr ⟨hoffered, hbefore⟩) hmem
          | some since => rfl
        · rfl
      · rw [hwork]
        exact hmem
  | swept ledger moment =>
    rcases h.pending.since?_sweep moment.now h.pendingTimeout x with
      hsame | ⟨hnone, since, hbefore, hlate⟩
    · exact .kept hsame List.not_mem_nil
    · exact .expired since hbefore hlate hnone List.not_mem_nil

/-- No hash is handed out twice by one call. -/
lemma nodup_handedOut_call (h : Handler) (c : Call) : (h.call c).2.handedOut.Nodup := by
  have htracks := h.tracks_call c
  generalize (h.call c).1 = h', (h.call c).2 = a at htracks
  cases htracks with
  | untouched hknown hsent hpending htimeout hannouncement hreports hdelivered hrequested =>
    rw [handedOut_eq_nil hreports]
    exact List.nodup_nil
  | offered ledger moment l hready =>
    rw [(onInv_eq h ledger moment.now l).2]
    exact nodup_awaitEach ..
  | announced | delivered | requested | swept => exact List.nodup_nil

/-- No call changes how long a hash is awaited. -/
lemma pendingTimeout_call (h : Handler) (c : Call) :
    (h.call c).1.pendingTimeout = h.pendingTimeout := by
  have htracks := h.tracks_call c
  generalize (h.call c).1 = h', (h.call c).2 = a at htracks ⊢
  cases htracks with
  | untouched hknown hsent hpending htimeout hannouncement hreports hdelivered hrequested =>
    exact htimeout
  | offered ledger moment l hready => rw [(onInv_eq h ledger moment.now l).1]
  | announced | delivered | requested | swept => rfl

/-! ## Turns -/

/-- A call in the course of a run, and the handler that is called. -/
structure Turn where
  before : Handler
  call : Call

namespace Turn

/-- The handler after the turn. -/
def after (t : Turn) : Handler := (t.before.call t.call).1

/-- Whether the turn hands out a hash as work. -/
def handsOut (x : Hash) (t : Turn) : Bool := (t.before.call t.call).2.handedOut.contains x

/-- Whether the turn ends the wait for a hash. -/
def removes (x : Hash) (t : Turn) : Bool :=
  t.before.pending.contains x && !t.after.pending.contains x

/-- The time of the turn, if time plays a part in it. -/
def time? (t : Turn) : Option Nat :=
  match t.call with
  | .handle _ moment _ => some moment.now
  | _ => none

/-- The timer finds that a hash has been awaited since some time, for longer than the timeout. -/
def Expires (x : Hash) (timeout since : Nat) (t : Turn) : Prop :=
  ∃ ledger moment, t.call = .handle ledger moment .timer ∧
    t.before.pending.since? x = some since ∧ timeout < moment.now - since

/-- The peer delivers the object with a hash. -/
def Delivers (x : Hash) (t : Turn) : Prop :=
  ∃ inventory, t.call.delivered? t.before.state = some inventory ∧ inventory.hash = x

/-- A hash is known to be with the peer before the turn, and not after it. -/
def Forgets (x : Hash) (t : Turn) : Prop :=
  t.before.known.contains x = true ∧ t.after.known.contains x = false

/-- What becomes of a hash in a turn is what becomes of it in the call. -/
lemma fate (t : Turn) (x : Hash) :
    t.before.Fate x t.call t.after (t.before.call t.call).2 := fate_call _ _ _

/-- How the wait for a hash may end. -/
lemma expires_or_delivers {t : Turn} {x : Hash} (hremoves : t.removes x = true) :
    (∃ since, t.Expires x t.before.pendingTimeout since) ∨
      t.Delivers x ∧ t.after.known.contains x = true := by
  rw [removes, PendingHashes.contains_eq_isSome, PendingHashes.contains_eq_isSome] at hremoves
  obtain ⟨before, call⟩ := t
  have hfate := fate ⟨before, call⟩ x
  generalize hafter : after ⟨before, call⟩ = h', (before.call call).2 = a at hfate hremoves ⊢
  cases hfate with
  | kept hsince hwork =>
    rw [hsince, Bool.and_not_self] at hremoves
    exact absurd hremoves Bool.false_ne_true
  | handedOut hbefore hunknown hafter hwork =>
    rw [hbefore] at hremoves
    exact absurd hremoves Bool.false_ne_true
  | expired since hbefore hlate hafter hwork => exact .inl ⟨since, _, _, rfl, hbefore, hlate⟩
  | delivered inventory hdelivered hhash hknown hafter hwork =>
    exact .inr ⟨⟨inventory, hdelivered, hhash⟩, hknown⟩

/-- While the time since which a hash is awaited stays the same, the wait goes on. -/
lemma removes_of_since?_ne {t : Turn} {x : Hash} {since : Nat}
    (hbefore : t.before.pending.since? x = some since)
    (hafter : t.after.pending.since? x ≠ some since) : t.removes x = true := by
  obtain ⟨before, call⟩ := t
  have hfate := fate ⟨before, call⟩ x
  rw [removes, PendingHashes.contains_eq_isSome, PendingHashes.contains_eq_isSome, hbefore]
  generalize Turn.after ⟨before, call⟩ = h', (before.call call).2 = a at hfate hafter ⊢
  cases hfate with
  | kept hsince hwork => exact absurd (hsince.trans hbefore) hafter
  | handedOut hnone _ _ _ => exact absurd (hnone.symm.trans hbefore) (Option.some_ne_none _).symm
  | expired _ _ _ hnone _ | delivered _ _ _ _ hnone _ =>
    rw [hnone]
    rfl

/-- A turn that hands a hash out is an announcement by the peer; the hash was not awaited and is
not known to be with the peer, and it is awaited from then on. -/
lemma of_handsOut {t : Turn} {x : Hash} (hwork : t.handsOut x = true) :
    t.before.pending.since? x = none ∧ t.before.known.contains x = false ∧
      ∃ now, t.time? = some now ∧ t.after.pending.since? x = some now := by
  have hmem : x ∈ (t.before.call t.call).2.handedOut := List.contains_iff_mem.mp hwork
  obtain ⟨before, call⟩ := t
  have hfate := fate ⟨before, call⟩ x
  generalize hafter : after ⟨before, call⟩ = h', (before.call call).2 = a at hfate hmem ⊢
  cases hfate with
  | handedOut hbefore hunknown hafter hwork => exact ⟨hbefore, hunknown, _, rfl, hafter⟩
  | kept _ hidle | expired _ _ _ _ hidle | delivered _ _ _ _ _ hidle => exact absurd hmem hidle

/-- A hash is handed out when it begins to be awaited, and at no other time. -/
lemma balance (t : Turn) (x : Hash) :
    (if t.handsOut x then 1 else 0) + (if t.before.pending.contains x then 1 else 0) =
      (if t.removes x then 1 else 0) + if t.after.pending.contains x then 1 else 0 := by
  obtain ⟨before, call⟩ := t
  have hfate := fate ⟨before, call⟩ x
  rw [removes, handsOut, PendingHashes.contains_eq_isSome, PendingHashes.contains_eq_isSome]
  generalize hafter : after ⟨before, call⟩ = h', (before.call call).2 = a at hfate ⊢
  cases hfate with
  | kept hsince hwork =>
    have hidle : a.handedOut.contains x = false := by simpa using hwork
    rw [hsince, hidle, Bool.and_not_self]
  | handedOut hbefore hunknown hafter hwork =>
    rw [hbefore, hafter, List.contains_iff_mem.mpr hwork]
    rfl
  | expired since hbefore hlate hafter hwork =>
    have hidle : a.handedOut.contains x = false := by simpa using hwork
    rw [hbefore, hafter, hidle]
    rfl
  | delivered inventory hdelivered hhash hknown hafter hwork =>
    have hidle : a.handedOut.contains x = false := by simpa using hwork
    rw [hafter, hidle]
    cases before.pending.since? x <;> rfl

end Turn

/-- The turns of a run of calls. -/
def turns (h : Handler) : (calls : List Call) → List Turn
  | [] => []
  | c :: rest => ⟨h, c⟩ :: turns (h.call c).1 rest

/-- The handler after a run of calls. -/
def callAll (h : Handler) (calls : List Call) : Handler := calls.foldl (fun h c => (h.call c).1) h

/-- The turns before some moment and from then on are turns of runs again. -/
lemma turns_eq_append {h : Handler} {calls : List Call} {earlier later : List Turn}
    (hturns : h.turns calls = earlier ++ later) :
    ∃ before after, earlier = h.turns before ∧ later = (h.callAll before).turns after := by
  induction earlier generalizing h calls with
  | nil => exact ⟨[], calls, rfl, hturns.symm⟩
  | cons t earlier ih =>
    cases calls with
    | nil => exact absurd hturns (List.cons_ne_nil _ _).symm
    | cons c rest =>
      obtain ⟨rfl, hrest⟩ := List.cons_eq_cons.mp hturns
      obtain ⟨before, after, rfl, rfl⟩ := ih hrest
      exact ⟨c :: before, after, rfl, rfl⟩

/-- What happens between two turns of a run is a run that begins where the first of them ends. -/
lemma turns_between {h : Handler} {calls : List Call} {earlier between later : List Turn}
    {first second : Turn}
    (hturns : h.turns calls = earlier ++ first :: between ++ second :: later) :
    ∃ middle, between = first.after.turns middle ∧ second.before = first.after.callAll middle := by
  rw [List.append_assoc, List.cons_append] at hturns
  obtain ⟨_, _ | ⟨c, following⟩, -, hfirst⟩ := turns_eq_append hturns
  · exact absurd hfirst (List.cons_ne_nil _ _)
  obtain ⟨rfl, hfollowing⟩ := List.cons_eq_cons.mp hfirst
  obtain ⟨middle, _ | ⟨c', rest⟩, hmiddle, hsecond⟩ := turns_eq_append hfollowing.symm
  · exact absurd hsecond (List.cons_ne_nil _ _)
  exact ⟨middle, hmiddle, congrArg Turn.before (List.cons_eq_cons.mp hsecond).1⟩

/-- What holds before some turns and not after them is lost at one of them for the first time. -/
lemma exists_turn_losing (P : Handler → Prop) {h : Handler} {calls : List Call} (hbefore : P h)
    (hafter : ¬ P (h.callAll calls)) :
    ∃ (waiting : List Turn) (t : Turn) (rest : List Turn), h.turns calls = waiting ++ t :: rest ∧
      (∀ u ∈ waiting, P u.before ∧ P u.after) ∧ P t.before ∧ ¬ P t.after ∧
      ∃ more, rest = t.after.turns more ∧ h.callAll calls = t.after.callAll more := by
  induction calls generalizing h with
  | nil => exact absurd hbefore hafter
  | cons c rest ih =>
    by_cases hnext : P (h.call c).1
    · obtain ⟨waiting, t, more, hturns, hwaiting, hlosing⟩ := ih hnext hafter
      refine ⟨⟨h, c⟩ :: waiting, t, more, ?_, ?_, hlosing⟩
      · rw [turns, hturns, List.cons_append]
      · exact List.forall_mem_cons.mpr ⟨⟨hbefore, hnext⟩, hwaiting⟩
    · exact ⟨[], ⟨h, c⟩, (h.call c).1.turns rest, rfl, List.forall_mem_nil _, hbefore, hnext, rest,
        rfl, rfl⟩

/-- All turns of a handler give what is awaited the same time. -/
lemma pendingTimeout_of_mem_turns {h : Handler} {calls : List Call} {t : Turn}
    (ht : t ∈ h.turns calls) : t.before.pendingTimeout = h.pendingTimeout := by
  induction calls generalizing h with
  | nil => exact absurd ht List.not_mem_nil
  | cons c rest ih =>
    rcases List.mem_cons.mp ht with rfl | ht
    · rfl
    · rw [ih ht, pendingTimeout_call]

/-- Over any turns a hash is handed out as often as the wait for it ends, but for the wait that goes
on. -/
lemma countP_handsOut (x : Hash) (h : Handler) (calls : List Call) :
    (h.turns calls).countP (Turn.handsOut x) + (if h.pending.contains x then 1 else 0) =
      (h.turns calls).countP (Turn.removes x) +
        if (h.callAll calls).pending.contains x then 1 else 0 := by
  induction calls generalizing h with
  | nil => rfl
  | cons c rest ih =>
    have hturn := Turn.balance ⟨h, c⟩ x
    have hrest := ih (h.call c).1
    rw [turns, List.countP_cons, List.countP_cons]
    change _ = _ + if ((h.call c).1.callAll rest).pending.contains x then 1 else 0
    change _ + (if h.pending.contains x then 1 else 0) =
      _ + (if (h.call c).1.pending.contains x then 1 else 0) at hturn
    omega

/-- A hash that is awaited no more at the end, and not known to be with the peer, was given up by
the timer, or delivered and forgotten after that. -/
lemma exists_turn_ending_wait {h : Handler} {calls : List Call} {x : Hash} {since : Nat}
    (hsince : h.pending.since? x = some since)
    (hend : (h.callAll calls).pending.since? x = none)
    (hunknown : (h.callAll calls).known.contains x = false) :
    ∃ (waiting : List Turn) (t : Turn) (rest : List Turn), h.turns calls = waiting ++ t :: rest ∧
      (∀ u ∈ waiting, u.after.pending.contains x = true) ∧ t.removes x = true ∧
      (t.Expires x h.pendingTimeout since ∨ t.Delivers x ∧ ∃ u ∈ rest, u.Forgets x) := by
  have hlost : ¬ (h.callAll calls).pending.since? x = some since := by
    rw [hend]
    exact (Option.some_ne_none since).symm
  obtain ⟨waiting, t, rest, hturns, hwaiting, hbefore, hafter, more, hrest, hcalls⟩ :=
    exists_turn_losing (fun h => h.pending.since? x = some since) hsince hlost
  have hremoves : t.removes x = true := Turn.removes_of_since?_ne hbefore hafter
  refine ⟨waiting, t, rest, hturns, fun u hu => ?_, hremoves, ?_⟩
  · rw [PendingHashes.contains_eq_isSome, (hwaiting u hu).2]
    rfl
  · rcases Turn.expires_or_delivers hremoves with ⟨since', hexpires⟩ | ⟨hdelivers, hknown⟩
    · left
      have hmem : t ∈ h.turns calls := hturns ▸ List.mem_append_right _ List.mem_cons_self
      obtain ⟨ledger, moment, hcall, hsince', hlate⟩ := hexpires
      obtain rfl : since' = since := Option.some_inj.mp (hsince'.symm.trans hbefore)
      rw [pendingTimeout_of_mem_turns hmem] at hlate
      exact ⟨ledger, moment, hcall, hbefore, hlate⟩
    · right
      refine ⟨hdelivers, ?_⟩
      have hforgotten : ¬ (t.after.callAll more).known.contains x = true := by
        rw [← hcalls, hunknown]
        exact Bool.false_ne_true
      obtain ⟨_, u, _, hturns', -, hbefore', hafter', -⟩ :=
        exists_turn_losing (fun h => h.known.contains x = true) hknown hforgotten
      refine ⟨u, ?_, hbefore', Bool.eq_false_of_not_eq_true hafter'⟩
      rw [hrest, hturns']
      exact List.mem_append_right _ List.mem_cons_self

/-- In every run of a handler, whatever it is called with and whatever its clock shows: no call
hands out a hash twice; the wait for a hash ends by the timer, after longer than the timeout, or by
a delivery; and a hash is handed out as often as the wait for it has ended, and once more while it
is awaited.  If a hash is handed out at two turns, then the wait that the first of them began has
ended in between, and only once for each time that it was handed out.  It has ended by the timer,
after longer than the timeout since the first turn, or by a delivery, and then the set of hashes
that the peer has forgot it before the second turn. -/
theorem work_handed_out_once (ledger : Ledger) (pendingTimeout : Nat) (calls : List Call)
    (x : Hash) :
    let run := (start ledger pendingTimeout).turns calls
    (∀ t ∈ run, (t.before.call t.call).2.handedOut.Nodup) ∧
    (∀ t ∈ run, t.removes x = true →
      (∃ since, t.Expires x pendingTimeout since) ∨ t.Delivers x) ∧
    run.countP (Turn.handsOut x) = run.countP (Turn.removes x) +
      (if ((start ledger pendingTimeout).callAll calls).pending.contains x then 1 else 0) ∧
    ∀ (earlier : List Turn) (first : Turn) (between : List Turn) (second : Turn)
      (later : List Turn), run = earlier ++ first :: between ++ second :: later →
      first.handsOut x = true → second.handsOut x = true →
      between.countP (Turn.removes x) = between.countP (Turn.handsOut x) + 1 ∧
      ∃ (waiting : List Turn) (t : Turn) (rest : List Turn), between = waiting ++ t :: rest ∧
        (∀ u ∈ waiting, u.after.pending.contains x = true) ∧ t.removes x = true ∧
        ((∃ since, first.time? = some since ∧ t.Expires x pendingTimeout since) ∨
          t.Delivers x ∧ ∃ u ∈ rest, u.Forgets x) := by
  intro run
  refine ⟨fun t _ => nodup_handedOut_call _ _, fun t ht hremoves => ?_, ?_, ?_⟩
  · have htimeout : t.before.pendingTimeout = pendingTimeout := pendingTimeout_of_mem_turns ht
    rw [← htimeout]
    exact (Turn.expires_or_delivers hremoves).imp_right And.left
  · have hcount := countP_handsOut x (start ledger pendingTimeout) calls
    have hnone : (start ledger pendingTimeout).pending.contains x = false :=
      PendingHashes.since?_eq_none_iff.mp (PendingHashes.since?_empty x)
    rw [hnone] at hcount
    exact hcount
  · intro earlier first between second later hrun hfirst hsecond
    obtain ⟨middle, rfl, hmiddle⟩ := turns_between hrun
    obtain ⟨-, -, now, htime, hsince⟩ := Turn.of_handsOut hfirst
    obtain ⟨hend, hunknown, -⟩ := Turn.of_handsOut hsecond
    rw [hmiddle] at hend hunknown
    have htimeout : first.after.pendingTimeout = pendingTimeout := by
      have hmem : first ∈ run := by simp [hrun]
      exact (pendingTimeout_call _ _).trans (pendingTimeout_of_mem_turns hmem)
    refine ⟨?_, ?_⟩
    · have hcount := countP_handsOut x first.after middle
      rw [PendingHashes.contains_eq_isSome, PendingHashes.contains_eq_isSome, hsince, hend]
        at hcount
      exact hcount.symm
    · obtain ⟨waiting, t, rest, hturns, hwaiting, hremoves, hends⟩ :=
        exists_turn_ending_wait hsince hend hunknown
      rw [htimeout] at hends
      exact ⟨waiting, t, rest, hturns, hwaiting, hremoves, hends.imp_left fun h => ⟨now, htime, h⟩⟩

/-- A hash is handed out, given up by the timer, and handed out again. -/
theorem work_handed_out_after_expiry :
    ∃ (ledger : Ledger) (calls : List Call) (x : Hash) (earlier : List Turn) (first : Turn)
      (between : List Turn) (second : Turn) (later : List Turn),
      (start ledger 1000).turns calls = earlier ++ first :: between ++ second :: later ∧
      first.handsOut x = true ∧ second.handsOut x = true ∧
      between.countP (Turn.removes x) = between.countP (Turn.handsOut x) + 1 := by
  let ledger : Ledger := MemoryLedger.toLedger ⟨[], none, [], [], [], [], none, 0⟩
  let item (now : Nat) (m : Message) : Call := .handle ledger ⟨now, 0⟩ (.message m)
  let introduction : Call := item 0 (.version ⟨0, 0, 0, 1, "", []⟩)
  let offer (now : Nat) : Call := item now (.inv ⟨.transaction, [FixedBytes.zero 32]⟩)
  let timer : Call := .handle ledger ⟨1001, 0⟩ .timer
  let calls : List Call := [introduction, item 0 .verack, offer 0, timer, offer 1001]
  let before (n : Nat) : Handler := (start ledger 1000).callAll (calls.take n)
  obtain ⟨hfirst, hsecond⟩ : Turn.handsOut (FixedBytes.zero 32) ⟨before 2, offer 0⟩ = true ∧
      Turn.handsOut (FixedBytes.zero 32) ⟨before 4, offer 1001⟩ = true := by
    simp [before, calls, introduction, item, offer, timer, ledger, Turn.handsOut, callAll, call,
      handle, handleMessage, gate, Message.command, Handled.handler, Handled.reports,
      Answer.handedOut, answering, dispatch, onInv, awaitEach, isNews, start, onTimer,
      PendingHashes.add, PendingHashes.contains, PendingHashes.empty, PendingHashes.sweep,
      PendingHashes.sweepFrom, FifoSet.contains, FifoSet.ofCapacity, Ledger.holds,
      MemoryLedger.toLedger, MemoryLedger.positions]
  have hrun : (start ledger 1000).turns calls =
      [⟨before 0, introduction⟩, ⟨before 1, item 0 .verack⟩] ++ ⟨before 2, offer 0⟩ ::
        [⟨before 3, timer⟩] ++ ⟨before 4, offer 1001⟩ :: [] := rfl
  exact ⟨ledger, calls, FixedBytes.zero 32, _, _, _, _, _, hrun, hfirst, hsecond,
    ((work_handed_out_once ledger 1000 calls (FixedBytes.zero 32)).2.2.2 _ _ _ _ _ hrun hfirst
      hsecond).1⟩

end Handler

end PeerNet
