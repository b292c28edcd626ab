import PeerNet.Proofs.Frame.Sequence

/-!
# The frames that lead a stream

A stream starts with a number of well-formed frames, and then comes something else, or nothing
(`Leads`).  No reader is needed to say so.  Since a frame tells where it ends, a byte string starts
with one frame at most, so of two such sequences one continues the other, and there is a longest one
(`Leads.isPrefix`, `Longest`).

A reader that keeps the bytes of an unfinished frame stands behind the frames that it has read, and
what it comes to next is the next of them, or the longest sequence is over (`FrameReader.Parses`).
-/

namespace PeerNet

/-- No frame stands at the front, as far as the bytes are there. -/
def Frameless (s : Bytes) : Prop := ∀ m left, Message.decoder s ≠ .ok (m, left)

/-- A byte string starts with the frames of messages, and goes on with other bytes. -/
inductive Leads : Bytes → List Message → Bytes → Prop
  | nil (s : Bytes) : Leads s [] s
  | cons {frame s rest : Bytes} {m : Message} {messages : List Message}
    (hframe : Message.decode frame = .ok m) (h : Leads s messages rest) :
    Leads (frame ++ s) (m :: messages) rest

variable {s s' rest rest' frame frame' : Bytes} {m m' : Message} {messages messages' : List Message}

namespace Message

/-- A frame is a message for the decoder, whatever stands behind it. -/
lemma decoder_append_of_decode (h : decode frame = .ok m) (s : Bytes) :
    decoder (frame ++ s) = .ok (m, s) :=
  decoder_append (decode_eq_ok_iff.mp h) s

/-- What the decoder reads is a frame at the front. -/
lemma exists_frame_of_decoder (h : decoder s = .ok (m, rest)) :
    ∃ frame, decode frame = .ok m ∧ s = frame ++ rest := by
  obtain ⟨flags, c, payload, hflags, hsize, rfl, hpayload⟩ := exists_of_decoder_eq_ok h
  have hframe := decoder_frame flags hflags c hsize []
  rw [List.append_nil, hpayload] at hframe
  exact ⟨_, decode_eq_ok_iff.mpr hframe, rfl⟩

end Message

namespace Leads

/-- Messages at the front stay there when more bytes arrive. -/
lemma append (h : Leads s messages rest) (more : Bytes) :
    Leads (s ++ more) messages (rest ++ more) := by
  induction h with
  | nil s => exact .nil _
  | cons hframe _ ih =>
    rw [List.append_assoc]
    exact .cons hframe ih

/-- One more frame. -/
lemma concat (h : Leads s messages (frame ++ rest)) (hframe : Message.decode frame = .ok m) :
    Leads s (messages ++ [m]) rest := by
  generalize hfront : frame ++ rest = front at h
  induction h with
  | nil s =>
    subst hfront
    exact .cons hframe (.nil rest)
  | cons hframe' _ ih => exact .cons hframe' (ih hfront)

/-- The bytes behind the messages are an end of the whole. -/
lemma isSuffix (h : Leads s messages rest) : rest <:+ s := by
  induction h with
  | nil s => exact List.suffix_rfl
  | cons _ _ ih => exact ih.trans (List.suffix_append ..)

/-- The bytes behind a sequence have no part in it. -/
lemma of_append {more : Bytes} (h : Leads (s ++ more) messages (rest ++ more)) :
    Leads s messages rest := by
  generalize hwhole : s ++ more = whole, hfront : rest ++ more = front at h
  induction h generalizing s with
  | nil =>
    obtain rfl := List.append_cancel_right (hwhole.trans hfront.symm)
    exact .nil _
  | @cons frame s' _ m messages hframe h ih =>
    obtain ⟨between, rfl⟩ := h.isSuffix
    rw [← hfront, ← List.append_assoc, ← List.append_assoc] at hwhole
    obtain rfl := List.append_cancel_right hwhole
    rw [List.append_assoc]
    exact .cons hframe (ih (by rw [List.append_assoc, hfront]) hfront)

/-- No sequence of frames goes on where no frame stands. -/
lemma isPrefix (h : Leads s messages rest) (h' : Leads s messages' rest')
    (hend : Frameless rest) : messages' <+: messages := by
  induction h generalizing messages' with
  | nil s =>
    cases h' with
    | nil => exact List.prefix_rfl
    | cons hframe => exact absurd (Message.decoder_append_of_decode hframe _) (hend _ _)
  | @cons frame s rest m messages hframe _ ih =>
    generalize hwhole : frame ++ s = whole at h'
    cases h' with
    | nil => exact List.nil_prefix
    | cons hframe' h' =>
      have hread := Message.decoder_append_of_decode hframe s
      rw [hwhole, Message.decoder_append_of_decode hframe'] at hread
      obtain ⟨rfl, rfl⟩ := Prod.mk.inj (Except.ok.inj hread)
      exact List.cons_prefix_cons.mpr ⟨rfl, ih h' hend⟩

end Leads

/-- The messages of the longest sequence of frames that a byte string starts with. -/
structure Longest (s : Bytes) (messages : List Message) : Prop where
  leads : ∃ rest, Leads s messages rest
  longest : ∀ messages' rest, Leads s messages' rest → messages' <+: messages

/-- Every byte string starts with a sequence of frames behind which no frame stands. -/
lemma exists_leads (s : Bytes) : ∃ messages rest, Leads s messages rest ∧ Frameless rest := by
  induction hlength : s.length using Nat.strong_induction_on generalizing s with
  | _ n ih =>
    cases hread : Message.decoder s with
    | error e =>
      refine ⟨[], s, .nil s, fun m left h => ?_⟩
      rw [hread] at h
      exact Except.noConfusion rfl rfl (heq_of_eq h)
    | ok p =>
      obtain ⟨m, left⟩ := p
      obtain ⟨frame, hframe, rfl⟩ := Message.exists_frame_of_decoder hread
      have hsome : 0 < frame.length := by
        refine List.length_pos_iff.mpr ?_
        rintro rfl
        exact Except.noConfusion rfl rfl (heq_of_eq hframe)
      rw [List.length_append] at hlength
      obtain ⟨messages, rest, hleads, hend⟩ := ih left.length (by omega) left rfl
      exact ⟨m :: messages, rest, .cons hframe hleads, hend⟩

/-- Every byte string starts with a longest sequence of frames. -/
lemma exists_longest (s : Bytes) : ∃ messages, Longest s messages := by
  obtain ⟨messages, rest, hleads, hend⟩ := exists_leads s
  exact ⟨messages, ⟨rest, hleads⟩, fun _ _ h => hleads.isPrefix h hend⟩

/-- What stands at the front of some bytes is no message, and never will be. -/
inductive Spoilt (s : Bytes) : Prop
  | compressed (hfront : Front.of s = .compressed)
  | oversized {used size : Nat} (hfront : Front.of s = .oversized used size)
  | undecodable {size : Nat} {e : DecodeError} (hfront : Front.of s = .frame size)
    (hdecode : Message.decode (s.take size) = .error e)

/-- Where a read does not come to a message there is none for the decoder. -/
lemma frameless_of_firstRead (ended : Bool)
    (h : ∀ m used, firstRead ended s ≠ some (.ok m, used)) : Frameless s := by
  intro m left hdecoder
  obtain ⟨used, hread, -⟩ := firstRead_of_decoder hdecoder ended
  exact h m used hread

/-- Where the front of some bytes is spoilt, no frame stands there. -/
lemma Spoilt.frameless (h : Spoilt s) : Frameless s := by
  refine frameless_of_firstRead false fun m used hread => ?_
  rw [firstRead] at hread
  cases h with
  | compressed hfront | oversized hfront =>
    rw [hfront] at hread
    cases hread
  | undecodable hfront hdecode =>
    rw [hfront] at hread
    dsimp only at hread
    rw [hdecode] at hread
    cases hread

/-- More bytes do not take a message away. -/
lemma Frameless.of_append {more : Bytes} (h : Frameless (s ++ more)) : Frameless s :=
  fun m left hdecoder => h m (left ++ more) (Message.decoder_append hdecoder more)

namespace FrameReader

/-- What a step of a reader makes of the bytes that it has received and those that have arrived. -/
inductive Parses (r : FrameReader) (inlet : Inlet) (next : FrameReader) (rest : Inlet) :
    Option Outcome → Prop
  | nothing {outcome : Option Outcome} (houtcome : outcome = none ∨ outcome = some .waiting)
    (hvalid : next.Valid)
    (hbytes : next.received.reverse ++ rest.arrived = r.received.reverse ++ inlet.arrived) :
    Parses r inlet next rest outcome
  | message {m : Message} {frame : Bytes} (hframe : Message.decode frame = .ok m)
    (hvalid : next.Valid)
    (hbytes : frame ++ (next.received.reverse ++ rest.arrived) =
      r.received.reverse ++ inlet.arrived) : Parses r inlet next rest (some (.finished (.ok m)))
  | reset {e : TransportError} (hreset : inlet.ending = some .reset) (hsame : rest = inlet)
    (hnone : firstRead false r.received.reverse = none) :
    Parses r inlet next rest (some (.finished (.error e)))
  | failure {e : TransportError} {taken : Bytes} {used : Nat}
    (hread : firstRead inlet.ending.isSome (taken ++ rest.arrived) = some (.error e, used))
    (hbytes : taken ++ rest.arrived = r.received.reverse ++ inlet.arrived) :
    Parses r inlet next rest (some (.finished (.error e)))

/-- A read that ends has found out what stands at the front. -/
lemma Answers.parses {r next : FrameReader} {inlet rest : Inlet}
    {result : Except TransportError Message}
    (h : Answers inlet.ending.isSome (r.received.reverse ++ inlet.arrived) next rest.arrived
      (.finished result)) (hvalid : next.Valid) :
    r.Parses inlet next rest (some (.finished result)) := by
  obtain ⟨arrived, ending⟩ := rest
  dsimp only at h
  cases h with
  | finished used hread hrest hnext =>
    cases result with
    | ok m =>
      have hdecoder := decoder_of_firstRead hread
      rw [← skip_eq_of_firstRead hread, ← hnext] at hdecoder
      obtain ⟨frame, hframe, hbytes⟩ := Message.exists_frame_of_decoder hdecoder
      exact .message hframe hvalid hbytes.symm
    | error e =>
      have hbytes : (r.received.reverse ++ inlet.arrived).take used ++ arrived =
          r.received.reverse ++ inlet.arrived := by
        rw [hrest]
        exact List.take_append_drop ..
      rw [← hbytes] at hread
      exact .failure hread hbytes

/-- A step of a reader goes by what the bytes at the front are. -/
lemma parses_step {r : FrameReader} (hr : r.Valid) (limit : Nat) (inlet : Inlet) :
    r.Parses inlet (r.step limit inlet).1 (r.step limit inlet).2.1 (r.step limit inlet).2.2 := by
  by_cases hreset : inlet.ending = some .reset
  · by_cases hmissing : r.missing = 0
    · have hcorrect := correct_complete hr hmissing
      rw [step, if_pos hmissing]
      generalize r.complete = completion at hcorrect
      cases completion with
      | proceed next =>
        obtain ⟨hvalid, hreceived⟩ := hcorrect
        exact .nothing (.inl rfl) hvalid (congrArg (·.reverse ++ inlet.arrived) hreceived)
      | done next result =>
        obtain ⟨hvalid, hanswers⟩ := hcorrect
        exact (hanswers inlet.ending.isSome inlet.arrived).parses hvalid
    · have hnone : firstRead false r.received.reverse = none := by
        rw [firstRead, of_received_of_missing_ne_zero hr hmissing]
        rfl
      rw [step, if_neg hmissing, if_pos hreset]
      exact .reset hreset rfl hnone
  · obtain ⟨next, rest, outcome, hstep, hvalid, houtcome⟩ :=
      step_spec hr limit inlet.arrived inlet.ending.isSome
    rw [← Inlet.eq_ofStream hreset] at hstep
    rw [hstep]
    rcases outcome with _ | result | _
    · exact .nothing (.inl rfl) hvalid houtcome
    · exact Answers.parses houtcome hvalid
    · cases houtcome with
      | waiting _ hnext =>
        refine .nothing (.inr rfl) hvalid ?_
        rw [← hnext]
        exact List.append_nil _

end FrameReader

end PeerNet
