import PeerNet.Proofs.Handler.Sends
import PeerNet.Proofs.Manager.Identity
import PeerNet.Proofs.Manager.Notice
import PeerNet.Proofs.Manager.Targets

/-!
# What the manager has written

The manager writes nothing itself.  It has notices written to streams that it turns away, and it has
sessions write what it is told to broadcast.  Of its own accord it only has them ask for more
addresses (`Manager.step_requests`).
-/

namespace PeerNet

/-- Choices that draw no more than they are asked to. -/
structure Choices.Samples (choices : Choices) : Prop extends choices.Selects where
  length_drawRecords_le : ∀ count records, (choices.drawRecords count records).length ≤ count

/-- Taking what comes first draws no more than asked for. -/
lemma Choices.samples_first : Choices.first.Samples :=
  ⟨Choices.selects_first, fun count records => List.length_take_le count records⟩

namespace Manager

variable {m : Manager} {choices : Choices} {moment : Moment} {c : ManagerCommand}

/-- An order to write something is a request for more addresses, if it is an order at all. -/
def Requests (effect : ManagerEffect) : Prop :=
  ∀ peer message, effect = .command peer (.send message) → message = .getAddr

/-- What a notice has written is no more than a request for addresses. -/
lemma onNotice_requests (m : Manager) (choices : Choices) (moment : Moment) (peer : PeerId)
    (n : PeerNotice) : ∀ effect ∈ (m.onNotice choices moment peer n).2, Requests effect := by
  cases n with
  | introduced | addressRequest =>
    exact List.forall_mem_singleton.mpr fun _ _ => ManagerEffect.noConfusion
  | ready | filterChanged | suggested | disconnected => exact List.forall_mem_nil _
  | remoteHeight height =>
    rw [onNotice, raiseHeight]
    split
    · exact List.forall_mem_nil _
    · split
      · exact List.forall_mem_singleton.mpr fun _ _ => ManagerEffect.noConfusion
      · exact List.forall_mem_nil _
  | delivered inventory =>
    refine List.forall_mem_cons.mpr ⟨fun _ _ => ManagerEffect.noConfusion, ?_⟩
    exact List.forall_mem_map.mpr fun _ _ _ _ heq =>
      SessionCommand.noConfusion (ManagerEffect.command.inj heq).2

/-- Looking for connections may have peers asked for addresses, and has nothing else written. -/
lemma discover_requests (m : Manager) (choices : Choices) :
    ∀ effect ∈ (m.discover choices).2, Requests effect := by
  have hdial : ∀ wanted candidates, ∀ effect ∈ (m.dialSome choices wanted candidates).2,
      Requests effect :=
    fun _ _ => List.forall_mem_map.mpr fun _ _ _ _ => ManagerEffect.noConfusion
  unfold discover
  dsimp only
  split
  · exact List.forall_mem_nil _
  · split
    · exact hdial _ _
    · split
      · exact List.forall_mem_map.mpr fun _ _ _ _ heq =>
          (SessionCommand.send.inj (ManagerEffect.command.inj heq).2).symm
      · exact hdial _ _

/-- Unless a message is broadcast, all that a command has written is a request for addresses. -/
lemma handle_requests (m : Manager) (choices : Choices) (moment : Moment)
    (hown : ∀ message, c ≠ .broadcast message) :
    ∀ effect ∈ (m.handle choices moment c).2, Requests effect := by
  cases c with
  | broadcast message => exact absurd rfl (hown message)
  | connect remote direction =>
    have hanswers := m.answers_connect choices remote direction
    rw [handle]
    generalize m.connect choices remote direction = r at hanswers
    cases hanswers <;> exact List.forall_mem_singleton.mpr fun _ _ => ManagerEffect.noConfusion
  | notice peer n => exact m.onNotice_requests choices moment peer n
  | relay inventory =>
    exact List.forall_mem_map.mpr fun _ _ _ _ heq =>
      SessionCommand.noConfusion (ManagerEffect.command.inj heq).2
  | tick =>
    rw [handle]
    split
    · exact m.discover_requests choices
    · exact List.forall_mem_nil _
  | shutdown caller =>
    rw [handle, beginShutdown]
    split
    · exact List.forall_mem_map.mpr fun _ _ _ _ heq =>
        SessionCommand.noConfusion (ManagerEffect.command.inj heq).2
    · exact List.forall_mem_nil _
    · exact List.forall_mem_nil _
  | addPeers | inspect | dialFinished | rejectionFinished => exact List.forall_mem_nil _

/-- Unless it broadcasts a message, all that the manager has written is a request for addresses. -/
lemma step_requests (m : Manager) (choices : Choices) (moment : Moment)
    (hown : ∀ message, c ≠ .broadcast message) :
    ∀ effect ∈ (m.step choices moment c).2, Requests effect := by
  cases hlive : m.isStopped with
  | true =>
    rw [step_of_stopped hlive]
    exact List.forall_mem_nil _
  | false =>
    rw [step_of_live hlive]
    refine List.forall_mem_append.mpr ⟨m.handle_requests choices moment hown, ?_⟩
    intro effect heffect
    obtain ⟨callers, rfl⟩ := (stopIfDone_eq _).2.2 effect heffect
    exact fun _ _ => ManagerEffect.noConfusion

/-- No more peers are suggested than asked for. -/
lemma length_connectedPeers_le (hsamples : choices.Samples) (m : Manager) (count : Nat) :
    (m.connectedPeers choices count).length ≤ count :=
  hsamples.length_drawRecords_le _ _

/-- A notice is read back, whatever it suggests: it is cut to size. -/
lemma readsBack_of_rejectionNotice {reason : DisconnectReason} {records : List AddressRecord}
    {d : Disconnect} (h : rejectionNotice reason records = some d) :
    (Message.disconnect d).ReadsBack := by
  rw [rejectionNotice_eq] at h
  obtain rfl := Option.some.inj h
  refine Message.readsBack_of_fits rfl trivial ⟨utf8ByteSize_text_le reason, ?_⟩
  exact (fitting_spec records).fits

end Manager

end PeerNet
