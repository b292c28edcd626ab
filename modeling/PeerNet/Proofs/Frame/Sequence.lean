import PeerNet.Proofs.Frame.Agreement

/-!
# A reader in a sequence of frames

The bytes that a reader has received, those that have arrived behind them and those that are still
to come make up the frames of messages (`FrameReader.Follows`).  A step of the reader keeps it so,
and if it brings a message then one with the command of the first of these frames, which is used up
by it.

Nothing is said about what the messages carry: a frame that its reader refuses ends the reading, and
one that its reader takes may bring less than was sent.
-/

namespace PeerNet

namespace Message

/-- What the decoder accepts it accepts with more bytes behind it. -/
lemma decoder_append {bs rest : Bytes} {m : Message} (h : decoder bs = .ok (m, rest))
    (more : Bytes) : decoder (bs ++ more) = .ok (m, rest ++ more) := by
  obtain ⟨flags, c, payload, hflags, hsize, rfl, hm⟩ := exists_of_decoder_eq_ok h
  have hread := decoder_frame flags hflags c hsize (rest ++ more)
  rw [hm] at hread
  rw [List.cons_append, List.cons_append, List.append_assoc]
  exact hread

/-- Of a payload a message with its command is made, if any. -/
lemma command_of_decodePayload {c : Command} {bs : Bytes} {m : Message}
    (h : decodePayload c bs = .ok m) : m.command = c := by
  obtain ⟨w, hcommand, -, -, -, rfl⟩ := exists_of_decodePayload h
  rw [command_served, hcommand]

/-- A frame is read by its command, if at all, and nothing behind it is touched. -/
lemma of_decoder_encode_append {first m : Message} {rest left : Bytes}
    (h : decoder (first.encode ++ rest) = .ok (m, left)) :
    m.command = first.command ∧ left = rest := by
  by_cases hsize : first.encodePayload.length ≤ maxPayloadSize
  · rw [decoder_encode_append hsize] at h
    cases hpayload : decodePayload first.command first.encodePayload with
    | error e =>
      rw [hpayload] at h
      exact Except.noConfusion rfl rfl (heq_of_eq h)
    | ok w =>
      rw [hpayload] at h
      simp only [Except.map, Except.ok.injEq, Prod.mk.injEq] at h
      obtain ⟨rfl, rfl⟩ := h
      exact ⟨command_of_decodePayload hpayload, rfl⟩
  · obtain ⟨e, he⟩ := decoder_encode_append_eq_error hsize rest
    rw [he] at h
    exact absurd h (by simp)

/-- No frame is empty. -/
lemma encode_ne_nil (m : Message) : m.encode ≠ [] := List.cons_ne_nil _ _

end Message

/-- A stream that was not reset. -/
lemma Inlet.eq_ofStream {i : Inlet} (h : i.ending ≠ some .reset) :
    i = .ofStream i.arrived i.ending.isSome := by
  obtain ⟨arrived, _ | _ | _⟩ := i
  · rfl
  · rfl
  · exact absurd rfl h

namespace FrameReader

/-- A step does not change how the stream ends. -/
lemma ending_step (limit : Nat) (r : FrameReader) (inlet : Inlet) :
    (r.step limit inlet).2.1.ending = inlet.ending := by
  unfold step
  split
  · split <;> rfl
  · split
    · rfl
    · split
      · split <;> rfl
      · rfl

/-- A read that brings a message goes on behind its frame. -/
lemma skip_eq_of_firstRead {ended : Bool} {s : Bytes} {m : Message} {used : Nat}
    (h : firstRead ended s = some (.ok m, used)) : (Front.of s).skip = used := by
  unfold firstRead at h
  split at h
  · split_ifs at h
    simp at h
  · simp at h
  · simp at h
  · next size hfront =>
    simp only [Option.some.injEq, Prod.mk.injEq] at h
    rw [hfront]
    exact h.2

/-- A reader has received a part of the frames of messages; other parts have arrived, or are still
to come. -/
structure Follows (r : FrameReader) (arrived coming : Bytes) (messages : List Message) : Prop where
  valid : r.Valid
  bytes : r.received.reverse ++ arrived ++ coming = messages.flatMap Message.encode

variable {r : FrameReader} {arrived coming : Bytes} {messages : List Message}

/-- Some of what is to come arrives, and more messages are to come. -/
lemma Follows.extend (h : r.Follows arrived coming messages) {sent coming' : Bytes}
    {more : List Message} (hbytes : sent ++ coming' = coming ++ more.flatMap Message.encode) :
    r.Follows (arrived ++ sent) coming' (messages ++ more) := by
  refine ⟨h.valid, ?_⟩
  calc r.received.reverse ++ (arrived ++ sent) ++ coming'
      = r.received.reverse ++ arrived ++ (sent ++ coming') := by simp only [List.append_assoc]
    _ = r.received.reverse ++ arrived ++ coming ++ more.flatMap Message.encode := by
      rw [hbytes, List.append_assoc _ coming]
    _ = (messages ++ more).flatMap Message.encode := by rw [h.bytes, List.flatMap_append]

/-- With nothing on its way there is no message left. -/
lemma Follows.eq_nil (h : r.Follows [] [] messages) (hreceived : r.received = []) :
    messages = [] := by
  cases messages with
  | nil => rfl
  | cons m rest =>
    have hbytes := h.bytes
    rw [hreceived, List.flatMap_cons] at hbytes
    exact absurd (List.append_eq_nil_iff.mp hbytes.symm).1 m.encode_ne_nil

/-- What a step of a reader brings of the frames of messages. -/
inductive Brings (coming : Bytes) (messages : List Message) (next : FrameReader) (rest : Bytes) :
    Option Outcome → Prop
  /-- The step brings no message yet. -/
  | nothing {outcome : Option Outcome} (houtcome : outcome = none ∨ outcome = some .waiting)
    (hnext : next.Follows rest coming messages) : Brings coming messages next rest outcome
  | message {m first : Message} {others : List Message} (hmessages : messages = first :: others)
    (hcommand : m.command = first.command) (hnext : next.Follows rest coming others) :
    Brings coming messages next rest (some (.finished (.ok m)))
  | failure {e : TransportError} : Brings coming messages next rest (some (.finished (.error e)))

/-- A step of a reader that is within the frames of messages stays there, unless it fails; if it
brings a message, that has the command of the next one. -/
lemma Follows.step (h : r.Follows arrived coming messages) (limit : Nat) (ended : Bool) :
    ∃ next rest outcome, r.step limit (.ofStream arrived ended) =
      (next, .ofStream rest ended, outcome) ∧ Brings coming messages next rest outcome := by
  obtain ⟨next, rest, outcome, hstep, hvalid, houtcome⟩ := step_spec h.valid limit arrived ended
  refine ⟨next, rest, outcome, hstep, ?_⟩
  rcases outcome with _ | ⟨_ | m⟩ | _
  · refine .nothing (.inl rfl) ⟨hvalid, ?_⟩
    rw [← h.bytes]
    exact congrArg (· ++ coming) houtcome
  · exact .failure
  · cases houtcome with
    | finished used hread hrest hnext =>
      have hdecoder := Message.decoder_append (decoder_of_firstRead hread) coming
      rw [h.bytes] at hdecoder
      cases messages with
      | nil =>
        have hend : Message.decoder [] = .error .unexpectedEnd := rfl
        rw [List.flatMap_nil, hend] at hdecoder
        exact absurd hdecoder (by simp)
      | cons first others =>
        rw [List.flatMap_cons] at hdecoder
        obtain ⟨hcommand, hleft⟩ := Message.of_decoder_encode_append hdecoder
        refine .message rfl hcommand ⟨hvalid, ?_⟩
        rw [hnext, skip_eq_of_firstRead hread, hleft]
  · cases houtcome with
    | waiting hread hnext =>
      refine .nothing (.inr rfl) ⟨hvalid, ?_⟩
      rw [hnext, List.append_nil, h.bytes]

end FrameReader

end PeerNet
