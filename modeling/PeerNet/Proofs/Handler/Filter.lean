import PeerNet.Proofs.Handler.Grammar
import PeerNet.Proofs.Handler.Produces

/-!
# The filter, and what is said of it

Three messages are about the peer's filter, and only once the handshake is complete: one loads a
filter, one adds an element to what is loaded, one puts the filter away.  A handler that changes its
filter says so at once, and says nothing else with it (`Handler.Refilters`).  So whoever hears all
that a handler says knows the filter from what was said last.
-/

namespace PeerNet

/-- What an event says of the filter, if it says anything of it. -/
def HandlerEvent.filter? : HandlerEvent → Option (Option BloomFilter)
  | .filterChanged f => some f
  | .send _ | .versionReceived _ | .ready _ | .addressRequest | .peers _ | .relay _
  | .remoteHeight _ | .stop => none

/-- What a message makes of a filter. -/
def Message.refilter (filter : Option BloomFilter) : Message → Option BloomFilter
  | .filterLoad f => some (.ofLoad f)
  | .filterAdd f => filter.map (·.add f.data)
  | .filterClear => none
  | _ => filter

/-- A message that is not about the filter leaves it alone. -/
lemma Message.refilter_of_not_isOfFilter {m : Message} (hm : m.command.isOfFilter = false)
    (filter : Option BloomFilter) : m.refilter filter = filter := by
  cases m <;> first | rfl | exact Bool.noConfusion hm

/-- What was said last, where something may have been said before. -/
lemma getLastD_append {α : Type} (xs ys : List α) (before : α) :
    (xs ++ ys).getLastD before = ys.getLastD (xs.getLastD before) := by
  rw [List.getLastD_eq_getLast?, List.getLastD_eq_getLast?, List.getLastD_eq_getLast?,
    List.getLast?_append]
  cases ys.getLast? <;> rfl

namespace Handler

/-- What a call makes of a filter. -/
def Call.refilter (s : HandshakeState) (filter : Option BloomFilter) : Call → Option BloomFilter
  | .handle _ _ (.message m) => if s = .ready then m.refilter filter else filter
  | .handle _ _ .timer | .relay _ _ | .stop => filter

/-- What a call does to the filter, and what it says of it. -/
inductive Refilters (h : Handler) (c : Call) (h' : Handler) (events : List HandlerEvent) : Prop
  | kept (hfilter : h'.filter = h.filter) (hcall : c.refilter h.state h.filter = h.filter)
    (hsilent : ∀ f, .filterChanged f ∉ events)
  | changed (hfilter : h'.filter = c.refilter h.state h.filter)
    (hevents : events = [.filterChanged h'.filter])

variable {h h' : Handler} {c : Call} {events : List HandlerEvent}

/-- Whatever a call says of the filter, the filter is what its message makes of it. -/
lemma Refilters.filter_eq (hr : h.Refilters c h' events) :
    h'.filter = c.refilter h.state h.filter := by
  cases hr with
  | kept hfilter hcall => rw [hfilter, hcall]
  | changed hfilter => exact hfilter

lemma filterMap_filter?_eq_nil (hsilent : ∀ f, .filterChanged f ∉ events) :
    events.filterMap HandlerEvent.filter? = [] := by
  refine List.filterMap_eq_nil_iff.mpr fun e he => ?_
  cases e with
  | filterChanged f => exact absurd he (hsilent f)
  | _ => rfl

/-- What is said last of the filter is true of it. -/
lemma Refilters.last (hr : h.Refilters c h' events) :
    (events.filterMap HandlerEvent.filter?).getLastD h.filter = h'.filter := by
  cases hr with
  | kept hfilter _ hsilent =>
    rw [filterMap_filter?_eq_nil hsilent, hfilter]
    rfl
  | changed _ hevents =>
    rw [hevents]
    rfl

/-! ## One call -/

/-- A farewell tells of no filter. -/
lemma Farewell.filterChanged_notMem {farewell : List HandlerEvent} (hf : Farewell farewell)
    (f : Option BloomFilter) : .filterChanged f ∉ farewell := by
  cases hf <;> simp

/-- Work on a message that is not about the filter leaves it alone. -/
lemma filter_dispatch (h : Handler) (ledger : Ledger) (moment : Moment) {m : Message}
    (hm : m.command.isOfFilter = false) :
    (h.dispatch ledger moment m).handler.filter = h.filter := by
  cases m with
  | getData l =>
    obtain ⟨⟨sent, hsent⟩, -⟩ := serveOnto_spec ledger l.kind l.hashes h [] (List.forall_mem_nil _)
    have hhandler : (h.dispatch ledger moment (.getData l)).handler = { h with sent } := hsent
    rw [hhandler]
  | inv l =>
    obtain ⟨⟨pending, hpending⟩, -⟩ := onInv_spec h ledger moment.now l
    rw [dispatch, hpending]
  | transaction tx =>
    rw [dispatch]
    split <;> rfl
  | filterLoad | filterAdd | filterClear => exact Bool.noConfusion hm
  | _ => rfl

/-- Work on a message changes the filter as the message wants, and tells of each change. -/
lemma refilters_dispatch (hready : h.state = .ready) (ledger : Ledger) (moment : Moment)
    (m : Message) :
    h.Refilters (.handle ledger moment (.message m)) (h.dispatch ledger moment m).handler
      (h.dispatch ledger moment m).events := by
  have hcall : (Call.handle ledger moment (.message m)).refilter h.state h.filter =
      m.refilter h.filter := if_pos hready
  cases hm : m.command.isOfFilter with
  | false =>
    have hkept := Message.refilter_of_not_isOfFilter hm h.filter
    refine .kept (filter_dispatch h ledger moment hm) (hcall.trans hkept) fun f hf => ?_
    cases produces_dispatch h ledger moment m _ hf with
    | filterChanged _ hm' => exact Bool.noConfusion (hm.symm.trans hm')
  | true =>
    cases m with
    | filterLoad f => exact .changed hcall.symm rfl
    | filterClear => exact .changed hcall.symm rfl
    | filterAdd f =>
      rw [dispatch, onFilterAdd]
      split
      · next hnone =>
        refine .kept rfl (hcall.trans ?_) fun f => List.not_mem_nil
        rw [hnone]
        rfl
      · next filter hfilter =>
        refine .changed ?_ rfl
        rw [hcall, hfilter]
        rfl
    | _ => exact Bool.noConfusion hm

/-- A message that comes before the handshake is complete, or after the end, does nothing to the
filter. -/
lemma refilter_of_ne_ready (hstate : h.state ≠ .ready) (c : Call) (filter : Option BloomFilter) :
    c.refilter h.state filter = filter := by
  cases c with
  | handle ledger moment item =>
    cases item with
    | message m => exact if_neg hstate
    | timer => rfl
  | _ => rfl

/-- The same for a message at the gate: one that does not get through changes nothing. -/
lemma refilters_handleMessage (h : Handler) (ledger : Ledger) (moment : Moment) (m : Message) :
    h.Refilters (.handle ledger moment (.message m)) (h.handleMessage ledger moment m).handler
      (h.handleMessage ledger moment m).events := by
  have hhandles := handles_handleMessage h ledger moment m
  generalize h.handleMessage ledger moment m = handled at hhandles
  -- What is not everyday traffic is not about the filter.
  have hother : m.command.isOperational = false →
      (Call.handle ledger moment (.message m)).refilter h.state h.filter = h.filter := by
    intro hcommand
    have hm : m.command.isOfFilter = false := by
      cases m <;> first | rfl | exact Bool.noConfusion hcommand
    change (if h.state = .ready then m.refilter h.filter else h.filter) = h.filter
    rw [Message.refilter_of_not_isOfFilter hm, ite_self]
  cases hhandles with
  | ignored _ hstate =>
    refine .kept rfl (refilter_of_ne_ready ?_ _ _) fun f => List.not_mem_nil
    rw [hstate]
    exact HandshakeState.noConfusion
  | parted d =>
    exact .kept rfl (hother rfl) (farewell_onDisconnect h d).filterChanged_notMem
  | introduced v => exact .kept rfl (hother rfl) fun f => by simp [Handled.events, answering]
  | acknowledged =>
    refine .kept rfl (hother rfl) fun f => ?_
    cases hversion : h.version <;> simp [Handled.events, answering]
  | dispatched _ hready => exact refilters_dispatch hready ledger moment m
  | violated _ hgate =>
    refine .kept rfl ?_ fun f => List.not_mem_nil
    by_cases hready : h.state = .ready
    · refine hother (Bool.eq_false_iff.mpr fun hcommand => ?_)
      have hdispatch := gate_eq_dispatch_iff.mpr ⟨hready, hcommand⟩
      rw [hgate] at hdispatch
      exact GateDecision.noConfusion hdispatch
    · exact refilter_of_ne_ready hready _ _

/-- Every call leaves the filter alone and says nothing of it, or changes it and says so. -/
lemma refilters_call (h : Handler) (c : Call) :
    h.Refilters c (h.call c).1 (h.call c).2.events := by
  cases c with
  | handle ledger moment item =>
    cases item with
    | message m => exact refilters_handleMessage h ledger moment m
    | timer => exact .kept rfl rfl fun f => List.not_mem_nil
  | relay kind hash =>
    obtain ⟨⟨known, hknown⟩, -⟩ := relay_spec h kind hash
    refine .kept ?_ rfl fun f => List.not_mem_nil
    rw [show (h.call (.relay kind hash)).1 = { h with known } from hknown]
  | stop => exact .kept rfl rfl fun f => List.not_mem_nil

/-! ## Runs -/

namespace Run

/-- Whatever is called on a new handler, its filter is the one that was told last of all that its
events told, and there is none as long as nothing was told. -/
theorem filter_told_last (ledger : Ledger) (pendingTimeout : Nat) (calls : List Call) :
    let run := after ledger pendingTimeout calls
    run.handler.filter = (run.events.filterMap HandlerEvent.filter?).getLastD none := by
  induction calls using List.reverseRecOn with
  | nil => rfl
  | append_singleton calls c ih =>
    have hlast := ((after ledger pendingTimeout calls).handler.refilters_call c).last
    rw [after_append]
    change _ = (((after ledger pendingTimeout calls).events ++ _).filterMap _).getLastD none
    rw [List.filterMap_append, getLastD_append, ← ih]
    exact hlast.symm

end Run

end Handler

end PeerNet
