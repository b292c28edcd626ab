import PeerNet.Proofs.Mailbox.Lane
import PeerNet.Session.Connection

/-!
# What goes into a connection and what comes out of it

A step of the intake goes on with a read, or it pushes a message: the one that the read comes to, or
the one that is held back (`Intake.Steps`).  What becomes of a message that is pushed is for the
mailbox to say (`Intake.Offers`).  As long as the mailbox is open none gets lost by it: what is read
is in the mailbox, or held back, or it is dropped as redundant (`Intake.step_perm`).

On the other side the session takes up one thing after the other.  What it turns to, and what there
must not be for it to do so, is said once (`Connection.Chooses`).
-/

namespace PeerNet

/-- The message of an item; the timer has none. -/
def MailboxItem.message? : MailboxItem → Option Message
  | .message m => some m
  | .timer => none

namespace Mailbox

/-- The messages that wait in a mailbox. -/
def messages (b : Mailbox) : List Message := b.queued.filterMap MailboxItem.message?

variable {b b' : Mailbox} {item : MailboxItem}

/-- An item that is put into the mailbox is there with the others. -/
lemma queued_append_perm (b : Mailbox) (item : MailboxItem) :
    (b.append item).queued.Perm (item :: b.queued) := by
  rw [append]
  split
  · rw [queued, List.append_assoc]
    exact List.perm_middle
  · rw [queued, ← List.append_assoc]
    exact List.perm_append_singleton ..

/-- The messages queued after one more item are those before and the one that it is, if it is
one. -/
lemma messages_append_perm (b : Mailbox) (item : MailboxItem) :
    (b.append item).messages.Perm (item.message?.toList ++ b.messages) := by
  have hperm := (b.queued_append_perm item).filterMap MailboxItem.message?
  rw [List.filterMap_cons] at hperm
  cases item <;> exact hperm

lemma length_contents_le (b : Mailbox) (p : Bool) : (b.contents p).length ≤ b.queued.length := by
  rw [queued_perm_contents, List.length_append]
  cases p
  · exact Nat.le_add_left _ _
  · exact Nat.le_add_right _ _

/-- The message that is received was the first of those queued, in the order of delivery. -/
lemma messages_of_receive (h : b.receive = (b', some item)) :
    b.messages = item.message?.toList ++ b'.messages := by
  rw [messages, queued_of_receive h, List.filterMap_cons]
  cases item <;> rfl

end Mailbox

namespace Intake

/-- The message that a step brings out of the stream. -/
def brought? (intake : Intake) (inlet : Inlet) : Option Message :=
  match intake with
  | .reading reader =>
    match reader.step reader.missing inlet with
    | (_, _, some (.finished (.ok m))) => some m
    | _ => none
  | .holding _ _ | .finished => none

/-- The message that is held back. -/
def held? : Intake → Option Message
  | .holding _ m => some m
  | .reading _ | .finished => none

/-- The message that a step pushes. -/
def pushed? (intake : Intake) (inlet : Inlet) : Option Message :=
  intake.held? <|> intake.brought? inlet

/-- The message that is dropped in a step, with what waits in the mailbox. -/
def dropped? (intake : Intake) (inlet : Inlet) (b : Mailbox) :
    Option (Message × List MailboxItem) :=
  match intake.pushed? inlet with
  | some m => if (b.push (.message m)).2 = .dropped then some (m, b.queued) else none
  | none => none

/-- What becomes of a message that is offered to a mailbox. -/
inductive Offers (reader : FrameReader) (m : Message) (b : Mailbox) : Intake × Mailbox → Prop
  | queued {b' : Mailbox} (hpush : b.push (.message m) = (b', .queued))
    (hnext : b' = b.append (.message m)) : Offers reader m b (.reading reader, b')
  | dropped (hpush : b.push (.message m) = (b, .dropped))
    (hredundant : (MailboxItem.message m).isRedundant b.queued = true) :
    Offers reader m b (.reading reader, b)
  | blocked (hpush : b.push (.message m) = (b, .blocked))
    (hfull : b.laneCapacity ≤ b.queued.length) : Offers reader m b (.holding reader m, b)
  | closed (hpush : b.push (.message m) = (b, .closed)) (hclosed : b.closed = true) :
    Offers reader m b (.finished, b)

lemma offers_offer (reader : FrameReader) (m : Message) (b : Mailbox) :
    Offers reader m b (offer reader m b) := by
  have hpushes := Mailbox.pushes_push b (.message m)
  rw [offer]
  rcases hpush : b.push (.message m) with ⟨b', result⟩
  rw [hpush] at hpushes
  cases hpushes with
  | closed hclosed => exact .closed hpush hclosed
  | dropped _ hredundant => exact .dropped hpush hredundant
  | queued _ _ _ hnext => exact .queued hpush hnext
  | blocked _ _ hfull => exact .blocked hpush (hfull.trans (Mailbox.length_contents_le _ _))

/-- An offer pushes the message once, and holds it back exactly if the push is blocked. -/
lemma Offers.spec {reader : FrameReader} {m : Message} {b : Mailbox} {r : Intake × Mailbox}
    (h : Offers reader m b r) :
    r.2 = (b.push (.message m)).1 ∧
      r.1.held? = if (b.push (.message m)).2 = .blocked then some m else none := by
  cases h with
  | queued hpush | dropped hpush | blocked hpush | closed hpush =>
    rw [hpush]
    exact ⟨rfl, rfl⟩

/-- What a step of the intake comes to. -/
inductive Steps (inlet : Inlet) (b : Mailbox) :
    Intake → Option Message → Intake × Inlet × Mailbox → Prop
  | reads {reader next : FrameReader} {rest : Inlet} {outcome : Option FrameReader.Outcome}
    (hstep : reader.step reader.missing inlet = (next, rest, outcome))
    (houtcome : outcome = none ∨ outcome = some .waiting) :
    Steps inlet b (.reading reader) none (.reading next, rest, b)
  | fails {reader next : FrameReader} {rest : Inlet} {e : TransportError}
    (hstep : reader.step reader.missing inlet = (next, rest, some (.finished (.error e)))) :
    Steps inlet b (.reading reader) none (.finished, rest, b)
  | brings {reader next : FrameReader} {rest : Inlet} {m : Message} {r : Intake × Mailbox}
    (hstep : reader.step reader.missing inlet = (next, rest, some (.finished (.ok m))))
    (hoffers : Offers next m b r) : Steps inlet b (.reading reader) (some m) (r.1, rest, r.2)
  | retries {reader : FrameReader} {m : Message} {r : Intake × Mailbox}
    (hoffers : Offers reader m b r) : Steps inlet b (.holding reader m) none (r.1, inlet, r.2)
  | rests : Steps inlet b .finished none (.finished, inlet, b)

lemma steps_step (intake : Intake) (inlet : Inlet) (b : Mailbox) :
    Steps inlet b intake (intake.brought? inlet) (intake.step inlet b) := by
  cases intake with
  | reading reader =>
    rcases hstep : reader.step reader.missing inlet with ⟨next, rest, outcome⟩
    rw [brought?, step, hstep]
    rcases outcome with _ | ⟨e | m⟩ | _
    · exact .reads hstep (.inl rfl)
    · exact .fails hstep
    · exact .brings hstep (offers_offer next m b)
    · exact .reads hstep (.inr rfl)
  | holding reader m => exact .retries (offers_offer reader m b)
  | finished => exact .rests

variable {intake : Intake} {inlet : Inlet} {b : Mailbox}

/-- A step pushes the message that it is said to push, once, and nothing else; what it leaves held
back is that message, if the push is blocked. -/
lemma step_push (intake : Intake) (inlet : Inlet) (b : Mailbox) :
    match intake.pushed? inlet with
    | some m =>
      (intake.step inlet b).2.2 = (b.push (.message m)).1 ∧
        (intake.step inlet b).1.held? =
          if (b.push (.message m)).2 = .blocked then some m else none
    | none => (intake.step inlet b).2.2 = b ∧ (intake.step inlet b).1.held? = none := by
  have hsteps := steps_step intake inlet b
  rw [pushed?]
  generalize intake.brought? inlet = brought, intake.step inlet b = r at hsteps ⊢
  cases hsteps with
  | reads | fails | rests => exact ⟨rfl, rfl⟩
  | brings _ hoffers | retries hoffers => exact hoffers.spec

/-- A message that is offered to an open mailbox is there, or held back, or dropped. -/
lemma Offers.perm {reader : FrameReader} {m : Message} {r : Intake × Mailbox}
    (h : Offers reader m b r) (hopen : b.closed = false) :
    (m :: b.messages).Perm
      ((if (b.push (.message m)).2 = .dropped then [m] else []) ++
        (r.1.held?.toList ++ r.2.messages)) := by
  cases h with
  | queued hpush hnext =>
    rw [hpush, hnext]
    exact (b.messages_append_perm (.message m)).symm
  | dropped hpush =>
    rw [hpush]
    exact .refl _
  | blocked hpush =>
    rw [hpush]
    exact .refl _
  | closed _ hclosed => exact Bool.noConfusion (hopen.symm.trans hclosed)

/-- A step in an open mailbox loses no message. -/
lemma step_perm (intake : Intake) (inlet : Inlet) (hopen : b.closed = false) :
    ((intake.brought? inlet).toList ++ (intake.held?.toList ++ b.messages)).Perm
      ((intake.dropped? inlet b).toList.map Prod.fst ++
        ((intake.step inlet b).1.held?.toList ++ (intake.step inlet b).2.2.messages)) := by
  have hsteps := steps_step intake inlet b
  have hdropped : ∀ m, intake.pushed? inlet = some m →
      (intake.dropped? inlet b).toList.map Prod.fst =
        if (b.push (.message m)).2 = .dropped then [m] else [] := by
    intro m hm
    rw [dropped?, hm]
    dsimp only
    split <;> rfl
  have hnone : intake.pushed? inlet = none →
      (intake.dropped? inlet b).toList.map Prod.fst = [] := by
    intro hm
    rw [dropped?, hm]
    rfl
  rw [pushed?] at hdropped hnone
  generalize intake.brought? inlet = brought, intake.step inlet b = r at hsteps hdropped hnone ⊢
  cases hsteps with
  | reads | fails | rests =>
    rw [hnone rfl]
    exact .refl _
  | brings _ hoffers | retries hoffers =>
    rw [hdropped _ rfl]
    exact hoffers.perm hopen

/-- What is dropped is redundant with what waits. -/
lemma isRedundant_of_dropped {p : Message × List MailboxItem}
    (h : intake.dropped? inlet b = some p) : (MailboxItem.message p.1).isRedundant p.2 = true := by
  rw [dropped?] at h
  split at h
  · next m _ =>
    split at h
    · next hpushed =>
      cases h
      have hpushes := Mailbox.pushes_push b (.message m)
      generalize (b.push (.message m)).1 = b', (b.push (.message m)).2 = result at hpushes hpushed
      subst hpushed
      cases hpushes with
      | dropped _ hredundant => exact hredundant
    · cases h
  · cases h

/-- A step pushes at most: it leaves the size of the lanes and the end of the mailbox alone. -/
lemma mailbox_step (intake : Intake) (inlet : Inlet) (b : Mailbox) :
    (intake.step inlet b).2.2.laneCapacity = b.laneCapacity ∧
      (intake.step inlet b).2.2.closed = b.closed := by
  have hoffer : ∀ {reader m r}, Offers reader m b r →
      r.2.laneCapacity = b.laneCapacity ∧ r.2.closed = b.closed := by
    intro reader m r hoffers
    cases hoffers with
    | queued hpush =>
      have hspec := b.push_fst_spec (.message m)
      rwa [hpush] at hspec
    | dropped | blocked | closed => exact ⟨rfl, rfl⟩
  have hsteps := steps_step intake inlet b
  generalize intake.brought? inlet = brought, intake.step inlet b = r at hsteps ⊢
  cases hsteps with
  | reads | fails | rests => exact ⟨rfl, rfl⟩
  | brings _ hoffers | retries hoffers => exact hoffer hoffers

/-- An intake that has to wait is left as it is by a step, and so is all around it. -/
lemma step_of_mustWait (h : intake.mustWait inlet b = true) :
    intake.step inlet b = (intake, inlet, b) ∧ intake.brought? inlet = none ∧
      intake.dropped? inlet b = none := by
  cases intake with
  | reading reader =>
    obtain ⟨hneeds, hsilent⟩ := Bool.and_eq_true_iff.mp h
    have hmissing : reader.missing ≠ 0 := bne_iff_ne.mp hneeds
    obtain ⟨arrived, ending⟩ := inlet
    obtain ⟨hempty, hlive⟩ := Bool.and_eq_true_iff.mp hsilent
    obtain rfl := Option.isNone_iff_eq_none.mp hlive
    have hstep : reader.step reader.missing ⟨arrived, none⟩ =
        (reader, ⟨arrived, none⟩, some .waiting) := by
      rw [FrameReader.step, if_neg hmissing, if_neg (Option.some_ne_none _).symm, if_pos hempty]
    have hbrought : brought? (.reading reader) ⟨arrived, none⟩ = none := by
      rw [brought?, hstep]
    refine ⟨?_, hbrought, ?_⟩
    · rw [step, hstep]
    · rw [dropped?, pushed?, hbrought]
      rfl
  | holding reader m =>
    have hblocked : (b.push (.message m)).2 = .blocked := of_decide_eq_true h
    have hoffer : offer reader m b = (.holding reader m, b) := by
      have hoffers := offers_offer reader m b
      generalize offer reader m b = r at hoffers ⊢
      cases hoffers with
      | blocked => rfl
      | queued hpush | dropped hpush | closed hpush =>
        rw [hpush] at hblocked
        exact PushResult.noConfusion hblocked
    refine ⟨?_, rfl, ?_⟩
    · rw [step, hoffer]
    · have hpushed : pushed? (.holding reader m) inlet = some m := rfl
      rw [dropped?, hpushed]
      dsimp only
      rw [hblocked]
      rfl
  | finished => exact ⟨rfl, rfl, rfl⟩

end Intake

/-- The message of the peer that is taken up. -/
def SessionInput.message? : SessionInput → Option Message
  | .item i => i.message?
  | .written _ | .answer _ | .command _ | .handshakeTimeout | .readerFinished => none

/-- Only an item of the mailbox brings a session a message. -/
lemma SessionInput.eq_of_message? {input : SessionInput} {m : Message}
    (h : input.message? = some m) : input = .item (.message m) := by
  cases input with
  | item i =>
    cases i with
    | message m' => rw [Option.some.inj h]
    | timer => exact Option.noConfusion rfl (heq_of_eq h)
  | written _ | answer _ | command _ | handshakeTimeout | readerFinished =>
    exact Option.noConfusion rfl (heq_of_eq h)

namespace Connection

/-- What a session takes up that has to wait for no write.  One that is idle turns to the first of
the commands, to the mailbox if there is none, and to anything else only if the mailbox is empty
too. -/
inductive Chooses (c : Connection) : SessionInput → Connection → Prop
  | answer {a : ManagerAnswer}
    (hphase : c.session.phase = .awaitingVerdict ∨ c.session.phase = .awaitingAddresses)
    (hanswer : c.answer = some a) : Chooses c (.answer a) { c with answer := none }
  | command {first : SessionCommand} {commands : List SessionCommand}
    (hphase : c.session.phase = .idle) (hcommands : c.commands = first :: commands) :
    Chooses c (.command first) { c with commands }
  | item {mailbox : Mailbox} {i : MailboxItem} (hphase : c.session.phase = .idle)
    (hcommands : c.commands = []) (hreceive : c.mailbox.receive = (mailbox, some i)) :
    Chooses c (.item i) { c with mailbox }
  | handshakeTimeout (hphase : c.session.phase = .idle) (hcommands : c.commands = [])
    (hempty : c.mailbox.queued = []) : Chooses c .handshakeTimeout c
  | readerFinished (hphase : c.session.phase = .idle) (hcommands : c.commands = [])
    (hempty : c.mailbox.queued = []) (hintake : c.intake = .finished) : Chooses c .readerFinished c

variable {c c' : Connection} {now : Nat} {input : SessionInput}

/-- What is taken up leaves the rest of the connection alone. -/
lemma Chooses.spec (h : c.Chooses input c') :
    c'.session = c.session ∧ c'.intake = c.intake ∧ c'.mailbox.closed = c.mailbox.closed ∧
      c.mailbox.messages = input.message?.toList ++ c'.mailbox.messages := by
  cases h with
  | answer | command | handshakeTimeout | readerFinished => exact ⟨rfl, rfl, rfl, rfl⟩
  | item _ _ hreceive =>
    obtain ⟨-, -, -, -, -, hclosed⟩ := Mailbox.receive_spec hreceive
    exact ⟨rfl, rfl, hclosed, Mailbox.messages_of_receive hreceive⟩

/-- What a connection takes up next is chosen in this way. -/
lemma chooses_of_next? (h : c.next? now = some (input, c')) : c.Chooses input c' := by
  have hanswered : c.session.phase = .awaitingVerdict ∨ c.session.phase = .awaitingAddresses →
      (c.answer.map fun a => (SessionInput.answer a, { c with answer := none })) =
        some (input, c') →
      c.Chooses input c' := by
    intro hphase h
    obtain ⟨a, hanswer, h⟩ := Option.map_eq_some_iff.mp h
    cases h
    exact .answer hphase hanswer
  rw [next?] at h
  split at h
  · next hphase =>
    rw [choose] at h
    split at h
    · next hcommands =>
      cases h
      exact .command hphase hcommands
    · next hcommands hreceive =>
      cases h
      exact .item hphase hcommands hreceive
    · next hcommands hreceive =>
      have hempty := Mailbox.queued_of_receive_none hreceive
      split at h
      · cases h
        exact .handshakeTimeout hphase hcommands hempty
      · split at h
        · next hintake =>
          cases h
          exact .readerFinished hphase hcommands hempty hintake
        · cases h
  · next hphase => exact hanswered (.inl hphase) h
  · next hphase => exact hanswered (.inr hphase) h
  all_goals cases h

/-- As long as something waits in its mailbox, an idle session has something to take up. -/
lemma exists_next?_of_queued (hphase : c.session.phase = .idle) (hqueued : c.mailbox.queued ≠ [])
    (now : Nat) :
    ∃ input c', c.next? now = some (input, c') ∧
      ((∃ first, input = .command first) ∨ ∃ i, input = .item i) := by
  have hnext : c.next? now = c.choose now := by rw [next?, hphase]
  rw [hnext, choose]
  split
  · exact ⟨_, _, rfl, .inl ⟨_, rfl⟩⟩
  · exact ⟨_, _, rfl, .inr ⟨_, rfl⟩⟩
  · next hreceive => exact absurd (Mailbox.queued_of_receive_none hreceive) hqueued

end Connection

end PeerNet
