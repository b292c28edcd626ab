import PeerNet.Proofs.Manager.Sends
import PeerNet.Proofs.Node.Course
import PeerNet.Proofs.Session.Sends

/-!
# What a node sends is read back

All that a node writes on its own account comes from a session or from the manager
(`Assembly.sent`).  The sessions and the manager owe each other something in this: the records that
a session passes on come with an answer of the manager, and the manager makes them from the versions
that the peers of other sessions gave.  So what is kept along a run is that every session is
legible, and that so is every answer on its way to one (`Assembly.Legible`).
-/

namespace PeerNet

/-- The messages that go out because of an effect of the manager.  A connection opens with the local
version, and a stream that is turned away gets its notice.  A message that a session is ordered to
write is counted when the order is given. -/
def ManagerEffect.sent (settings : Settings) (ledger : Ledger) (unixTime : UInt32) :
    ManagerEffect → List Message
  | .accepted _ => (Session.start settings ledger unixTime).2.filterMap SessionEffect.written?
  | .rejected notice? => (notice?.map Message.disconnect).toList
  | .command _ (.send m) => [m]
  | .command _ _ | .answer _ _ | .dial _ | .report _ _ | .stopped _ => []

namespace Assembly

variable {settings : Settings} {a : Assembly} {peer : PeerId} {choices : Choices}
  {ledger : Ledger} {moment : Moment} {c : ManagerCommand}

/-! ## What a node sends -/

/-- What goes out on a command of the manager. -/
def sentOn (a : Assembly) (choices : Choices) (ledger : Ledger) (moment : Moment)
    (c : ManagerCommand) : List Message :=
  (a.manager.step choices moment c).2.flatMap
    (ManagerEffect.sent a.manager.settings ledger moment.unixTime)

/-- The messages that a node sends next on its own account.  What others have it broadcast is left
out, and so is what a session writes to order, which was counted with the order. -/
def sent (a : Assembly) : Event → List Message
  | .command _ _ _ (.notice _ _) | .command _ _ _ (.broadcast _) => []
  | .command choices ledger moment c => a.sentOn choices ledger moment c
  | .hear choices ledger moment peer =>
    match a.members peer with
    | some ⟨_, n :: _, _⟩ => a.sentOn choices ledger moment (.notice peer n)
    | some ⟨_, [], _⟩ | none => []
  | .turn _ _ _ (.answer _) | .turn _ _ _ (.command (.send _)) => []
  | .turn ledger moment peer input =>
    match a.members peer with
    | some member => Session.Turn.written ⟨member.session, ledger, moment, input⟩
    | none => []
  | .settle ledger moment peer =>
    match a.members peer with
    | some ⟨session, _, some answer⟩ =>
      if session.phase = .awaitingVerdict ∨ session.phase = .awaitingAddresses then
        Session.Turn.written ⟨session, ledger, moment, .answer answer⟩
      else []
    | some ⟨_, _, none⟩ | none => []

/-- What an event has to keep to: the choices of the node are choices, the ledger keeps the caps of
a receiver, and a peer's version came off the wire. -/
def Event.WithinLimits : Event → Prop
  | .command choices _ _ _ | .hear choices _ _ _ => choices.Samples
  | .turn ledger _ _ input => ledger.WithinLimits ∧
    ∀ v, input = .item (.message (.version v)) →
      ∃ bytes, Message.decode bytes = .ok (.version v)
  | .settle ledger _ _ => ledger.WithinLimits

/-! ## What is kept along a run -/

/-- A session is legible, and so is the answer that waits for it. -/
structure MemberLegible (member : Member) : Prop where
  session : member.session.Legible
  answer : ∀ answer, member.answer = some answer → answer.ReadsBack

/-- All sessions are legible. -/
def Legible (a : Assembly) : Prop :=
  ∀ peer member, a.members peer = some member → MemberLegible member

/-- A version that was read keeps its caps. -/
lemma fits_of_decode {bytes : Bytes} {v : Version}
    (h : Message.decode bytes = .ok (.version v)) : v.Fits := by
  obtain ⟨-, w, -, -, haccepted, -, -, hserved⟩ := Message.exists_of_decode h
  cases w with
  | version w =>
    obtain rfl := Message.version.inj hserved
    exact haccepted
  | _ => exact Message.noConfusion hserved

/-- A version that a turn takes up keeps its caps, as it came off the wire. -/
lemma fits_of_withinLimits {input : SessionInput}
    (hevent : (Event.turn ledger moment peer input).WithinLimits) (v : Version)
    (hv : input = .item (.message (.version v))) : v.Fits := by
  obtain ⟨bytes, hbytes⟩ := hevent.2 v hv
  exact fits_of_decode hbytes

/-- The records that are suggested keep their caps, since the peers that are suggested have sent a
version. -/
lemma Legible.fits_of_mem_connectedPeers (h : a.Legible) (hsound : a.Sound settings)
    (hselects : choices.Selects) {count : Nat} {record : AddressRecord}
    (hrecord : record ∈ a.manager.connectedPeers choices count) : record.Normal ∧ record.Fits := by
  obtain ⟨p, v, hestablished, rfl⟩ := hsound.offers hselects hrecord
  obtain ⟨member, hmember, hversion⟩ := hestablished.held
  exact ⟨Ip.normal_normal _, ((h p.1 member hmember).session.version v hversion).2⟩

/-- What is suggested is read back. -/
lemma Legible.readsBack_addr (h : a.Legible) (hsound : a.Sound settings)
    (hsamples : choices.Samples)
    (hsome : a.manager.connectedPeers choices Manager.maxSuggestions ≠ []) :
    (Message.addr (a.manager.connectedPeers choices Manager.maxSuggestions)).ReadsBack := by
  have hrecords : ∀ record ∈ a.manager.connectedPeers choices Manager.maxSuggestions,
      record.Normal ∧ record.Fits :=
    fun _ hrecord => h.fits_of_mem_connectedPeers hsound hsamples.toSelects hrecord
  refine Message.readsBack_of_fits rfl (fun r hr => (hrecords r hr).1) ⟨⟨?_, ?_⟩, hsome⟩
  · exact Manager.length_connectedPeers_le hsamples a.manager _
  · exact fun r hr => (hrecords r hr).2

/-- Every answer that the manager gives is read back. -/
lemma Legible.readsBack_answer (h : a.Legible) (hsound : a.Sound settings)
    (hsamples : choices.Samples) {answer : ManagerAnswer}
    (hanswer : .answer peer answer ∈ (a.manager.step choices moment c).2) : answer.ReadsBack := by
  cases a.manager.step_concerns choices moment c _ hanswer with
  | addresses =>
    intro records heq hsome
    obtain rfl := ManagerAnswer.addresses.inj heq
    exact h.readsBack_addr hsound hsamples hsome
  | verdict => exact fun _ heq => ManagerAnswer.noConfusion heq

/-- Whatever goes out on a command of the manager is read back. -/
lemma readsBack_sentOn (a : Assembly) (choices : Choices) (ledger : Ledger) (moment : Moment)
    (hown : ∀ message, c ≠ .broadcast message) :
    ∀ m ∈ a.sentOn choices ledger moment c, m.ReadsBack := by
  intro m hm
  obtain ⟨effect, heffect, hm⟩ := List.mem_flatMap.mp hm
  have hconcerns := a.manager.step_concerns choices moment c effect heffect
  unfold ManagerEffect.sent at hm
  split at hm
  · rw [List.mem_singleton.mp hm]
    exact Identity.readsBack_version _ _ _
  · obtain ⟨d, hd, rfl⟩ := Option.map_eq_some_iff.mp (Option.mem_toList.mp hm)
    subst hd
    cases hconcerns with
    | notice hnotice => exact Manager.readsBack_of_rejectionNotice hnotice
  · next peer message =>
    rw [List.mem_singleton.mp hm, a.manager.step_requests choices moment hown _ heffect _ _ rfl]
    exact Message.readsBack_of_fits rfl trivial trivial
  all_goals exact absurd hm List.not_mem_nil

/-- A command leaves all sessions legible. -/
lemma Legible.command (h : a.Legible) (hsound : a.Sound settings) (hsamples : choices.Samples)
    (ledger : Ledger) (moment : Moment) (c : ManagerCommand) :
    (a.command choices ledger moment c).Legible := by
  intro peer member' hmember'
  have hanswers : ∀ {before after},
      AnswersWith (a.manager.step choices moment c).2 peer before after →
      (∀ answer, before = some answer → answer.ReadsBack) →
      ∀ answer, after = some answer → answer.ReadsBack := by
    rintro before after (rfl | ⟨given, rfl, hgiven⟩) hbefore answer hanswer
    · exact hbefore answer hanswer
    · obtain rfl := Option.some.inj hanswer
      exact h.readsBack_answer hsound hsamples hgiven
  cases a.continues_command choices ledger moment c hmember' with
  | same hmember hsession _ hanswer =>
    have hlegible := h peer _ hmember
    refine ⟨?_, hanswers hanswer hlegible.answer⟩
    rw [hsession]
    exact hlegible.session
  | new settings ledger unixTime _ hsession _ hanswer =>
    refine ⟨?_, hanswers hanswer fun _ hnone => Option.noConfusion rfl (heq_of_eq hnone)⟩
    rw [hsession]
    exact Session.legible_start settings ledger unixTime

/-- A session stays legible whatever happens to it, and what it writes of its own is read back. -/
lemma MemberLegible.turn {member : Member} (h : MemberLegible member)
    (hledger : ledger.WithinLimits) (moment : Moment) {input : SessionInput}
    (hitem : ∀ v, input = .item (.message (.version v)) → v.Fits)
    (hanswer : ∀ answer, input = .answer answer → answer.ReadsBack) :
    MemberLegible (member.proceed (member.session.step ledger moment input)) ∧
      (input.isOrder = false →
        ∀ m ∈ Session.Turn.written ⟨member.session, ledger, moment, input⟩, m.ReadsBack) := by
  obtain ⟨hlegible, hwritten⟩ := h.session.step hledger moment hitem hanswer
  refine ⟨⟨hlegible, h.answer⟩, fun hown m hm => hwritten hown m ?_⟩
  obtain ⟨effect, heffect, hm⟩ := List.mem_filterMap.mp hm
  cases effect with
  | write m' =>
    obtain rfl := Option.some.inj hm
    exact heffect
  | notify | report | close => exact Option.noConfusion rfl (heq_of_eq hm)

/-- A legible session takes the place of another. -/
lemma Legible.set (h : a.Legible) {a' : Assembly} {member : Member} (hmember : MemberLegible member)
    (hmembers : a'.members = Function.update a.members peer (some member)) : a'.Legible := by
  intro other m hm
  rw [hmembers] at hm
  by_cases hpeer : other = peer
  · subst hpeer
    rw [Function.update_self, Option.some.injEq] at hm
    rwa [← hm]
  · rw [Function.update_of_ne hpeer] at hm
    exact h other m hm

/-- A session stays legible when it takes up its answer. -/
lemma MemberLegible.settle {session : Session} {told : List PeerNotice} {answer : ManagerAnswer}
    (h : MemberLegible ⟨session, told, some answer⟩) (hledger : ledger.WithinLimits)
    (moment : Moment) :
    MemberLegible
        ((⟨session, told, none⟩ : Member).proceed (session.step ledger moment (.answer answer))) ∧
      ∀ m ∈ Session.Turn.written ⟨session, ledger, moment, .answer answer⟩, m.ReadsBack := by
  have hasked : MemberLegible ⟨session, told, none⟩ :=
    ⟨h.session, fun _ hnone => Option.noConfusion rfl (heq_of_eq hnone)⟩
  obtain ⟨hlegible, hwritten⟩ := hasked.turn hledger moment (fun _ => SessionInput.noConfusion)
    fun given heq => h.answer given (congrArg some (SessionInput.answer.inj heq))
  exact ⟨hlegible, hwritten rfl⟩

/-- Every event leaves all sessions legible. -/
lemma Legible.advance (h : a.Legible) (hsound : a.Sound settings) {event : Event}
    (hevent : event.WithinLimits) : (a.advance event).Legible := by
  have hadvances := a.advance_advances event
  generalize a.advance event = a' at hadvances
  cases hadvances with
  | unchanged => exact h
  | commanded choices ledger moment => exact h.command hsound hevent ledger moment _
  | @heard choices ledger moment peer session n told answer hmember =>
    have hlegible := h peer _ hmember
    have hheard : MemberLegible ⟨session, told, answer⟩ := ⟨hlegible.session, hlegible.answer⟩
    exact (h.set hheard rfl).command (hsound.hear hmember) hevent ledger moment _
  | @turned ledger moment peer member input hmember hunasked =>
    have hturn := (h peer member hmember).turn hevent.1 moment (fits_of_withinLimits hevent)
      fun answer heq => absurd heq (hunasked answer)
    exact h.set hturn.1 rfl
  | @settled ledger moment peer session told answer hmember =>
    exact h.set ((h peer _ hmember).settle hevent moment).1 rfl

/-- After all events all sessions are legible. -/
lemma legible_after (settings : Settings) {events : List Event}
    (hevents : ∀ event ∈ events, event.WithinLimits) : (after settings events).Legible :=
  (List.foldlRecOn events Assembly.advance
    (motive := fun a => a.Sound settings ∧ a.Legible)
    ⟨sound_start settings, fun _ _ h => Option.noConfusion rfl (heq_of_eq h)⟩
    fun _ h event hevent => ⟨h.1.advance event, h.2.advance h.1 (hevents event hevent)⟩).2

/-- What goes out next is read back. -/
lemma Legible.readsBack_sent (h : a.Legible) {event : Event} (hevent : event.WithinLimits) :
    ∀ m ∈ a.sent event, m.ReadsBack := by
  intro m hm
  unfold sent at hm
  split at hm
  · exact absurd hm List.not_mem_nil
  · exact absurd hm List.not_mem_nil
  · next hnotice hbroadcast =>
    exact a.readsBack_sentOn _ _ _ (fun message heq => hbroadcast message heq) m hm
  · split at hm
    · exact a.readsBack_sentOn _ _ _ (fun _ => ManagerCommand.noConfusion) m hm
    · exact absurd hm List.not_mem_nil
    · exact absurd hm List.not_mem_nil
  · exact absurd hm List.not_mem_nil
  · exact absurd hm List.not_mem_nil
  · next ledger moment peer input hunasked hunordered =>
    split at hm
    · next member hmember =>
      have hown : input.isOrder = false := by
        refine Bool.eq_false_iff.mpr fun horder => ?_
        unfold SessionInput.isOrder at horder
        split at horder
        · exact hunordered _ rfl
        all_goals exact Bool.noConfusion horder
      have hturn := (h peer member hmember).turn hevent.1 moment (fits_of_withinLimits hevent)
        fun answer heq => absurd heq (hunasked answer)
      exact hturn.2 hown m hm
    · exact absurd hm List.not_mem_nil
  · next ledger moment peer =>
    split at hm
    · next session told answer hmember =>
      split at hm
      · exact ((h peer _ hmember).settle hevent moment).2 m hm
      · exact absurd hm List.not_mem_nil
    · exact absurd hm List.not_mem_nil
    · exact absurd hm List.not_mem_nil

/-- Under ledgers that have nothing a receiver would refuse, and with versions that came off the
wire, whatever a node sends next on its own account, after whatever happened, is read from its
written form as it was sent.  A request for the pool is answered with lists of transactions, none of
them empty and none of more than five hundred hashes, that together are the pool in its order. -/
theorem sent_reads_back (settings : Settings) (events : List Event)
    (hevents : ∀ event ∈ events, event.WithinLimits) :
    (∀ event : Event, event.WithinLimits → ∀ m ∈ (after settings events).sent event,
      Message.decode m.encode = .ok m) ∧
    ∀ (h : Handler) (ledger : Ledger) (moment : Moment), h.state = .ready →
      ∃ ls : List HashList,
        h.handle ledger moment (.message .mempool) =
          .done ⟨h, ls.map fun l => .send (.inv l), []⟩ ∧
        (∀ l ∈ ls, l.kind = .transaction ∧ l.hashes ≠ [] ∧ l.hashes.length ≤ 500) ∧
        ls.flatMap HashList.hashes = ledger.mempool :=
  ⟨fun _ hevent => (legible_after settings hevents).readsBack_sent hevent,
    fun _ ledger moment hready => Handler.handle_mempool hready ledger moment⟩

/-- The events of a handshake keep to what every event has to. -/
lemma withinLimits_handshake (hledger : ledger.WithinLimits) (moment : Moment) {version : Version}
    (hversion : ∃ bytes, Message.decode bytes = .ok (.version version)) :
    ∀ e ∈ handshake ledger moment version, e.WithinLimits := by
  have hturn : ∀ input, (∀ v, input = .item (.message (.version v)) → v = version) →
      (Event.turn ledger moment ⟨1⟩ input).WithinLimits :=
    fun input hinput => ⟨hledger, fun v hv => by rwa [hinput v hv]⟩
  have hwritten := hturn (.written true) fun _ => SessionInput.noConfusion
  have hheard : (Event.hear .first ledger moment ⟨1⟩).WithinLimits := Choices.samples_first
  have hsettled : (Event.settle ledger moment ⟨1⟩).WithinLimits := hledger
  simp only [handshake, List.forall_mem_cons]
  refine ⟨hwritten, hturn _ fun v hv => ?_, hheard, hsettled, hwritten, hturn _ fun v hv => ?_,
    hheard, List.forall_mem_nil _⟩
  · exact (Message.version.inj (MailboxItem.message.inj (SessionInput.item.inj hv))).symm
  · exact Message.noConfusion (MailboxItem.message.inj (SessionInput.item.inj hv))

/-- A peer that accepts connections, and asks for addresses as soon as it is ready, is sent its own
record, and the record arrives. -/
theorem sent_reads_back_after_getAddr :
    ∃ (events : List Event) (event : Event) (record : AddressRecord),
      (∀ e ∈ events, e.WithinLimits) ∧ event.WithinLimits ∧
      (after (.standard (.ofMagic 7 1)) events).sent event = [.addr [record]] ∧
      Message.decode (Message.addr [record]).encode = .ok (.addr [record]) ∧
      ∃ (h : Handler) (ledger : Ledger) (ls : List HashList), h.state = .ready ∧
        h.handle ledger ⟨0, 0⟩ (.message .mempool) =
          .done ⟨h, ls.map fun l => .send (.inv l), []⟩ ∧
        ls.flatMap HashList.hashes = [default] := by
  let settings : Settings := .standard (.ofMagic 7 1)
  let ledger : Ledger :=
    { height := 0, blockHash := fun _ => none, blockIndex := fun _ => none
      containsBlock := fun _ => false, containsTransaction := fun _ => false
      block := fun _ => none, transaction := fun _ => none, consensus := fun _ => none
      mempool := [default], mempoolCapacity := 16 }
  have hledger : ledger.WithinLimits := by
    constructor <;> exact fun _ _ hnone => Option.noConfusion rfl (heq_of_eq hnone)
  let now : Moment := ⟨0, 0⟩
  let version : Version := Identity.version { Identity.ofMagic 7 2 with listenerPort := some 1 } 0 0
  have hversion : ∃ bytes, Message.decode bytes = .ok (.version version) :=
    ⟨_, Identity.readsBack_version _ _ _⟩
  let record : AddressRecord := .ofIp default version.timestamp version.capabilities
  let connect : Event := .command .first ledger now (.connect default .inbound)
  let rest : List Event := handshake ledger now version ++
    [.turn ledger now ⟨1⟩ (.item (.message .getAddr)), .hear .first ledger now ⟨1⟩]
  have hevents : ∀ e ∈ connect :: rest, e.WithinLimits := by
    refine List.forall_mem_cons.mpr ⟨Choices.samples_first, List.forall_mem_append.mpr ⟨?_, ?_⟩⟩
    · exact withinLimits_handshake hledger now hversion
    · have hturn : (Event.turn ledger now ⟨1⟩ (.item (.message .getAddr))).WithinLimits :=
        ⟨hledger, fun _ hv =>
          Message.noConfusion (MailboxItem.message.inj (SessionInput.item.inj hv))⟩
      exact List.forall_mem_cons.mpr ⟨hturn, List.forall_mem_singleton.mpr Choices.samples_first⟩
  have hsent : (after settings (connect :: rest)).sent (.settle ledger now ⟨1⟩) =
      [.addr [record]] := by
    rw [after, List.foldl_cons, advance_connect (by decide) (by decide)]
    rfl
  obtain ⟨hreads, hpool⟩ := sent_reads_back settings (connect :: rest) hevents
  let h : Handler := { Handler.start ledger 1000 with state := .ready }
  obtain ⟨ls, hanswer, -, hall⟩ := hpool h ledger now rfl
  refine ⟨connect :: rest, .settle ledger now ⟨1⟩, record, hevents, hledger, hsent, ?_, h, ledger,
    ls, rfl, hanswer, hall⟩
  refine hreads (.settle ledger now ⟨1⟩) hledger _ ?_
  rw [hsent]
  exact List.mem_cons_self

end Assembly

end PeerNet
