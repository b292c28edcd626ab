import PeerNet.Proofs.Handler.Sends
import PeerNet.Proofs.Manager.Notice
import PeerNet.Proofs.Session.Course

/-!
# What a session writes is read back

A session writes what its handler sends, sooner or later, and a few messages of its own.  It is
enough to look at what is left on its agenda (`Session.Legible`): as long as that is read back, so
is all that is written.  Two things come from the manager: the records that a session passes on,
which come with an answer, and messages that it is ordered to write, for which the session does not
vouch.
-/

namespace PeerNet

/-- Whether an input is the order to write some message. -/
def SessionInput.isOrder : SessionInput → Bool
  | .command (.send _) => true
  | .written _ | .answer _ | .command _ | .item _ | .handshakeTimeout | .readerFinished => false

/-- The records that an answer gives, if it gives any, make a message that is read back. -/
def ManagerAnswer.ReadsBack (a : ManagerAnswer) : Prop :=
  ∀ records, a = .addresses records → records ≠ [] → (Message.addr records).ReadsBack

/-- The notice that gives its reason in words is short enough. -/
lemma Disconnect.readsBack_plain (reason : DisconnectReason) :
    (Message.disconnect (.plain reason)).ReadsBack :=
  Message.readsBack_of_fits rfl trivial ⟨Manager.utf8ByteSize_text_le reason, Nat.zero_le _⟩

/-- The version that opens a connection is read back: a user agent is short enough for it. -/
lemma Identity.readsBack_version (i : Identity) (startHeight timestamp : UInt32) :
    (Message.version (i.version startHeight timestamp)).ReadsBack := by
  refine Message.readsBack_of_fits rfl trivial ⟨?_, ?_⟩
  · have hvalid := i.userAgent.valid
    rw [UserAgent.check] at hvalid
    split at hvalid
    · cases hvalid
    · next hshort => exact Nat.not_lt.mp hshort
  · change (i.capabilities startHeight).length ≤ 32
    rw [Identity.capabilities, List.length_append]
    cases i.listenerPort <;> exact Nat.le_of_ble_eq_true rfl

namespace Session

variable {s : Session} {ledger : Ledger} {moment : Moment} {input : SessionInput}

/-- All that a session has left to send is read back, and the peer's version keeps its caps. -/
structure Legible (s : Session) : Prop where
  agenda : ∀ m, .send m ∈ s.agenda → m.ReadsBack
  version : ∀ v, s.handler.version = some v → v.Fits

/-- The version that a session writes first is read back. -/
lemma legible_start (settings : Settings) (ledger : Ledger) (unixTime : UInt32) :
    (start settings ledger unixTime).1.Legible :=
  ⟨fun _ => (absurd · List.not_mem_nil), fun _ h => Option.noConfusion rfl (heq_of_eq h)⟩

/-- A session is legible after what it did, and what it wrote is read back. -/
structure StaysLegible (r : Session × List SessionEffect) : Prop where
  legible : r.1.Legible
  written : ∀ m, .write m ∈ r.2 → m.ReadsBack

/-- Events that are read back are written as such. -/
lemma staysLegible_carryOut {events : List HandlerEvent}
    (hversion : ∀ v, s.handler.version = some v → v.Fits)
    (hevents : ∀ m, .send m ∈ events → m.ReadsBack) : StaysLegible (s.carryOut events) := by
  have hcarries := carriesOut_carryOut events s
  obtain ⟨state, hhandler⟩ := hcarries.handler_eq
  refine ⟨⟨fun m hm => hevents m (hcarries.agenda hm), fun v hv => hversion v ?_⟩,
    fun m hm => hevents m (hcarries.written m hm)⟩
  rwa [hhandler] at hv

/-- A session that ends has nothing left to send. -/
lemma staysLegible_finish (hversion : ∀ v, s.handler.version = some v → v.Fits) :
    StaysLegible s.finish :=
  ⟨⟨fun _ => (absurd · List.not_mem_nil), hversion⟩,
    fun m hm => absurd hm (s.write_notMem_finish m)⟩

/-- A message of the session's own goes before what is left. -/
lemma Legible.staysLegible_send (h : s.Legible) {m : Message} (hm : m.ReadsBack) :
    StaysLegible (s.send m) := by
  refine ⟨⟨h.agenda, h.version⟩, fun m' hm' => ?_⟩
  rwa [SessionEffect.write.inj (List.mem_singleton.mp hm')]

/-- A turn leaves a session legible, and what it writes is read back unless it was ordered. -/
lemma Legible.step (h : s.Legible) (hledger : ledger.WithinLimits) (moment : Moment)
    (hitem : ∀ v, input = .item (.message (.version v)) → v.Fits)
    (hanswer : ∀ a, input = .answer a → a.ReadsBack) :
    (s.step ledger moment input).1.Legible ∧
      (input.isOrder = false → ∀ m, .write m ∈ (s.step ledger moment input).2 → m.ReadsBack) := by
  have hcourse := s.step_course ledger moment input
  generalize s.step ledger moment input = r at hcourse
  -- An order may have anything written, but it leaves the agenda and the version alone.
  suffices hon : StaysLegible r ∨ r.1.Legible ∧ input.isOrder = true by
    rcases hon with hon | ⟨hlegible, horder⟩
    · exact ⟨hon.legible, fun _ => hon.written⟩
    · exact ⟨hlegible, fun hno => Bool.noConfusion (horder.symm.trans hno)⟩
  have hhandled : ∀ i, input = .item i → ∀ v,
      (s.handler.handle ledger moment i).handler.version = some v → v.Fits := by
    rintro i rfl v hv
    rcases s.handler.version_handle ledger moment i hv with hold | rfl
    · exact h.version v hold
    · exact hitem v rfl
  cases hcourse with
  | silent => exact .inl ⟨⟨h.agenda, h.version⟩, fun m => (absurd · List.not_mem_nil)⟩
  | resumed => exact .inl (staysLegible_carryOut h.version h.agenda)
  | @handled i reaction hdone =>
    have hversion := hhandled i rfl
    have hevents : ∀ m, .send m ∈ (s.handler.handle ledger moment i).events → m.ReadsBack :=
      fun m => Handler.readsBack_handle hledger s.handler moment i
    rw [hdone] at hversion hevents
    let s' : Session := { s with handler := reaction.handler }
    have hon : StaysLegible (s'.carryOut reaction.events) :=
      staysLegible_carryOut hversion hevents
    refine .inl ⟨hon.legible, fun m hm => ?_⟩
    rcases List.mem_append.mp hm with hm | hm
    · obtain ⟨report, -, heq⟩ := List.mem_map.mp hm
      exact SessionEffect.noConfusion heq
    · exact hon.written m hm
  | @violated i handler v hviolation =>
    have hversion := hhandled i rfl
    rw [hviolation] at hversion
    exact .inl (staysLegible_finish hversion)
  | acknowledged => exact .inl (h.staysLegible_send (Message.readsBack_of_fits rfl trivial trivial))
  | suggested hrecords => exact .inl (h.staysLegible_send (hanswer _ rfl _ rfl hrecords))
  | told m => exact .inr ⟨⟨h.agenda, h.version⟩, rfl⟩
  | announced kind hash known =>
    have hknown : ({ s with handler := { s.handler with known } } : Session).Legible :=
      ⟨h.agenda, h.version⟩
    exact .inl (hknown.staysLegible_send (Handler.readsBack_announcement kind hash))
  | parted _ reason =>
    refine .inl ⟨⟨fun m => (absurd · List.not_mem_nil), h.version⟩, fun m hm => ?_⟩
    rw [SessionEffect.write.inj (List.mem_singleton.mp hm)]
    exact Disconnect.readsBack_plain reason
  | ended => exact .inl (staysLegible_finish h.version)

end Session

end PeerNet
