import PeerNet.Proofs.Handler.Grammar
import PeerNet.Session.Step

/-!
# Everything that a session can do

`Session.Course` goes through the outcomes of one step of a session, one for each thing that a
session does: it goes on with its agenda, its handler takes an item, it writes a message of its own
or one that it was told to write, it says farewell, it ends, or nothing comes of it.  Neither the
phase nor what came before matters to it.  What events lead to when they are carried out is said
apart (`Session.carriesOut_carryOut`): what is written was among them, and so is what is left of
them.
-/

namespace PeerNet

namespace Session

/-! ## Events carried out -/

/-- What comes of a list of events. -/
structure CarriesOut (s : Session) (events : List HandlerEvent) (r : Session × List SessionEffect) :
    Prop where
  /-- The handler stays as it is, or is stopped. -/
  handler_eq : ∃ state, r.1.handler = { s.handler with state }
  agenda : r.1.agenda ⊆ events
  written : ∀ m, .write m ∈ r.2 → .send m ∈ events
  filterChanged : ∀ f, .notify (.filterChanged f) ∈ r.2 → .filterChanged f ∈ events

variable {s : Session} {ledger : Ledger} {moment : Moment} {input : SessionInput}

/-- A session that ends writes nothing more. -/
lemma write_notMem_finish (s : Session) (m : Message) : .write m ∉ s.finish.2 := by
  cases hannounced : s.announced <;> simp [finish, hannounced]

/-- A session that ends tells of no filter. -/
lemma filterChanged_notMem_finish (s : Session) (f : Option BloomFilter) :
    .notify (.filterChanged f) ∉ s.finish.2 := by
  cases hannounced : s.announced <;> simp [finish, hannounced]

/-- What is carried out at once goes before what comes after it. -/
lemma CarriesOut.first {event : HandlerEvent} {rest : List HandlerEvent}
    {r : Session × List SessionEffect} (h : s.CarriesOut rest r) {effect : SessionEffect}
    (hwritten : ∀ m, effect ≠ .write m)
    (hfilter : ∀ f, effect = .notify (.filterChanged f) → event = .filterChanged f) :
    s.CarriesOut (event :: rest) (Session.first effect r) where
  handler_eq := h.handler_eq
  agenda := List.subset_cons_of_subset _ h.agenda
  written m hm := by
    rcases List.mem_cons.mp hm with heq | hm
    · exact absurd heq.symm (hwritten m)
    · exact List.mem_cons_of_mem _ (h.written m hm)
  filterChanged f hf := by
    rcases List.mem_cons.mp hf with heq | hf
    · rw [hfilter f heq.symm]
      exact List.mem_cons_self
    · exact List.mem_cons_of_mem _ (h.filterChanged f hf)

/-- An event that has to wait for something leaves all after it for later. -/
lemma CarriesOut.waiting {event : HandlerEvent} {rest : List HandlerEvent} {phase : SessionPhase}
    {effect : SessionEffect} (hwritten : ∀ m, effect = .write m → event = .send m)
    (hfilter : ∀ f, effect ≠ .notify (.filterChanged f)) :
    s.CarriesOut (event :: rest) ({ s with phase, agenda := rest }, [effect]) where
  handler_eq := ⟨_, rfl⟩
  agenda := List.subset_cons_self _ _
  written m hm := by
    rw [hwritten m (List.mem_singleton.mp hm).symm]
    exact List.mem_cons_self
  filterChanged f hf := absurd (List.mem_singleton.mp hf).symm (hfilter f)

/-- What a session writes, what it tells of the filter, and what it keeps for later was among the
events that it carries out. -/
lemma carriesOut_carryOut (events : List HandlerEvent) (s : Session) :
    s.CarriesOut events (s.carryOut events) := by
  induction events generalizing s with
  | nil =>
    exact ⟨⟨_, rfl⟩, List.Subset.refl _, fun m => (absurd · List.not_mem_nil),
      fun f => (absurd · List.not_mem_nil)⟩
  | cons event rest ih =>
    cases event with
    | send m =>
      exact .waiting (fun _ heq => congrArg HandlerEvent.send (SessionEffect.write.inj heq))
        fun _ => SessionEffect.noConfusion
    | versionReceived v =>
      exact .waiting (fun _ => SessionEffect.noConfusion)
        fun _ heq => PeerNotice.noConfusion (SessionEffect.notify.inj heq)
    | addressRequest =>
      exact .waiting (fun _ => SessionEffect.noConfusion)
        fun _ heq => PeerNotice.noConfusion (SessionEffect.notify.inj heq)
    | ready v =>
      have hrest : s.CarriesOut rest ({ s with announced := true }.carryOut rest) := by
        obtain ⟨hhandler, hagenda, hwritten, hfilter⟩ := ih { s with announced := true }
        exact ⟨hhandler, hagenda, hwritten, hfilter⟩
      have hready : s.CarriesOut (.ready v :: rest)
          (Session.first (.notify .ready) ({ s with announced := true }.carryOut rest)) :=
        hrest.first (fun _ => SessionEffect.noConfusion)
          fun f heq => PeerNotice.noConfusion (SessionEffect.notify.inj heq)
      refine ⟨hready.handler_eq, hready.agenda, fun m hm => ?_, fun f hf => ?_⟩
      · exact hready.written m ((List.mem_cons.mp hm).resolve_left SessionEffect.noConfusion)
      · exact hready.filterChanged f
          ((List.mem_cons.mp hf).resolve_left SessionEffect.noConfusion)
    | filterChanged f =>
      refine (ih s).first (fun _ => SessionEffect.noConfusion) fun f' heq => ?_
      rw [PeerNotice.filterChanged.inj (SessionEffect.notify.inj heq)]
    | peers records =>
      exact (ih s).first (fun _ => SessionEffect.noConfusion)
        fun f heq => PeerNotice.noConfusion (SessionEffect.notify.inj heq)
    | relay inventory =>
      exact (ih s).first (fun _ => SessionEffect.noConfusion)
        fun f heq => PeerNotice.noConfusion (SessionEffect.notify.inj heq)
    | remoteHeight height =>
      exact (ih s).first (fun _ => SessionEffect.noConfusion)
        fun f heq => PeerNotice.noConfusion (SessionEffect.notify.inj heq)
    | stop =>
      exact ⟨⟨_, rfl⟩, List.nil_subset _, fun m hm => absurd hm (s.write_notMem_finish m),
        fun f hf => absurd hf (s.filterChanged_notMem_finish f)⟩

/-! ## A step -/

/-- What comes of one thing that happens to a session. -/
inductive Course (s : Session) (ledger : Ledger) (moment : Moment) :
    SessionInput → Session × List SessionEffect → Prop
  | silent (input : SessionInput) (phase : SessionPhase) (known : FifoSet Hash) :
    Course s ledger moment input ({ s with phase, handler := { s.handler with known } }, [])
  | resumed (input : SessionInput) : Course s ledger moment input s.resume
  | handled {i : MailboxItem} {reaction : Handler.Reaction}
    (hdone : s.handler.handle ledger moment i = .done reaction) :
    Course s ledger moment (.item i)
      (({ s with handler := reaction.handler }.carryOut reaction.events).1,
        reaction.reports.map SessionEffect.report ++
          ({ s with handler := reaction.handler }.carryOut reaction.events).2)
  | violated {i : MailboxItem} {handler : Handler} {v : ProtocolViolation}
    (hviolation : s.handler.handle ledger moment i = .violation handler v) :
    Course s ledger moment (.item i) ({ s with handler }.finish)
  | acknowledged : Course s ledger moment (.answer (.verdict (.ok ()))) (s.send .verack)
  | suggested {records : List AddressRecord} (hrecords : records ≠ []) :
    Course s ledger moment (.answer (.addresses records)) (s.send (.addr records))
  | told (m : Message) : Course s ledger moment (.command (.send m)) (s.send m)
  | announced (kind : InventoryKind) (hash : Hash) (known : FifoSet Hash) :
    Course s ledger moment (.command (.relay kind hash))
      ({ s with handler := { s.handler with known } }.send (.inv ⟨kind, [hash]⟩))
  | parted (input : SessionInput) (reason : DisconnectReason) :
    Course s ledger moment input (s.part reason)
  | ended (input : SessionInput) : Course s ledger moment input s.finish

/-- A session that is left alone takes a silent turn. -/
lemma Course.unchanged (s : Session) (ledger : Ledger) (moment : Moment) (input : SessionInput) :
    s.Course ledger moment input (s, []) := .silent input s.phase s.handler.known

/-- An item takes its course by what the handler makes of it. -/
lemma course_onItem (s : Session) (ledger : Ledger) (moment : Moment) (i : MailboxItem) :
    s.Course ledger moment (.item i) (s.onItem ledger moment i) := by
  rw [onItem]
  split
  · next handler v hviolation => exact .violated hviolation
  · next reaction hdone => exact .handled hdone

/-- A message that the session is to send goes out, news are announced, an order to leave is obeyed,
or nothing comes of the command. -/
lemma course_onCommand (s : Session) (ledger : Ledger) (moment : Moment) (c : SessionCommand) :
    s.Course ledger moment (.command c) (s.onCommand c) := by
  cases c with
  | send m =>
    rw [onCommand]
    split
    · exact .told m
    · exact .unchanged ..
  | relay kind hash =>
    rw [onCommand, Handler.relay]
    split_ifs
    · split
      · next handler m heq =>
        split at heq
        · cases heq
          exact .announced kind hash _
        · cases heq
      · next handler heq =>
        split at heq
        · cases heq
        · cases heq
          exact .unchanged ..
    · exact .unchanged ..
  | disconnect reason => exact .parted _ reason

/-- A verdict has the peer acknowledged or left, and addresses are sent if there are any. -/
lemma course_onAnswer (s : Session) (ledger : Ledger) (moment : Moment) (a : ManagerAnswer) :
    s.Course ledger moment (.answer a) (s.onAnswer a) := by
  rcases a with (reason | ⟨⟩) | (- | ⟨record, records⟩)
  · exact .parted _ reason
  · exact .acknowledged
  · exact .resumed _
  · exact .suggested (List.cons_ne_nil _ _)

/-- A session does one of these things, whatever happens to it. -/
lemma step_course (s : Session) (ledger : Ledger) (moment : Moment) (input : SessionInput) :
    s.Course ledger moment input (s.step ledger moment input) := by
  unfold step
  split
  · exact .silent _ .idle s.handler.known
  · exact .resumed _
  · exact .ended _
  · exact .ended _
  · exact .ended _
  · exact s.course_onAnswer ledger moment _
  · exact s.course_onAnswer ledger moment _
  · exact s.course_onCommand ledger moment _
  · exact s.course_onItem ledger moment _
  · split
    · exact .unchanged ..
    · exact .parted _ _
  · exact .ended _
  · exact .unchanged ..

end Session

end PeerNet
