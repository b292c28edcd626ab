import PeerNet.Proofs.Frame.Front

/-!
# The reader parses the stream

A reader keeps the bytes of the frame it has begun.  Put in front of the bytes that have not been
read yet, they are the stream as the sequential parse sees it, and `FrameReader.Valid` says that the
reader's stage and the number of bytes it lacks are the right ones for them.

Every step keeps this up: it moves bytes from the stream to the reader, goes on to the next stage,
or ends the read with the answer of `firstRead`.  By induction on the steps, so does a whole read.
-/

namespace PeerNet

/-- A stream on which a byte string has arrived, and which may have ended behind it. -/
def Inlet.ofStream (bs : Bytes) (ended : Bool) : Inlet := ⟨bs, if ended then some .closed else none⟩

namespace FrameReader

open Front

/-! ## The invariant -/

/-- The bytes received are the beginning of a frame, the stage is the one they have led to, and what
is missing is what the stage still lacks. -/
inductive Valid : FrameReader → Prop
  | header {received : Bytes} {missing : Nat} (hmissing : received.length + missing = headerSize) :
    Valid ⟨.header, received, missing⟩
  | length {received digits : Bytes} {missing : Nat} {flags command marker : UInt8}
    (hbytes : received.reverse = flags :: command :: marker :: digits)
    (hflags : Message.isCompressed flags = false)
    (hwidth : CompactSize.extension marker ≠ 0)
    (hmissing : digits.length + missing = CompactSize.extension marker) :
    Valid ⟨.length, received, missing⟩
  | payload {received digits body : Bytes} {missing : Nat} {flags command marker : UInt8}
    (hbytes : received.reverse = flags :: command :: marker :: (digits ++ body))
    (hflags : Message.isCompressed flags = false)
    (hdigits : digits.length = CompactSize.extension marker)
    (hsize : announced marker digits ≤ Message.maxPayloadSize)
    (hmissing : body.length + missing = announced marker digits) :
    Valid ⟨.payload, received, missing⟩

/-- A reader that starts has no byte of the header that it reads. -/
lemma valid_start : start.Valid := .header rfl

/-- What a read that ends for now has to leave behind, if `s` are the bytes of the frame begun with
all that have not been read: an answer leaves the bytes behind those it used, and the next read
starts where the sequential parse goes on. -/
inductive Answers (ended : Bool) (s : Bytes) : FrameReader → Bytes → Outcome → Prop
  | finished {next : FrameReader} {rest : Bytes} {result : Except TransportError Message}
    (used : Nat) (hread : firstRead ended s = some (result, used)) (hrest : rest = s.drop used)
    (hnext : next.received.reverse ++ rest = s.drop (Front.of s).skip) :
    Answers ended s next rest (.finished result)
  | waiting {next : FrameReader} (hread : firstRead ended s = none)
    (hnext : next.received.reverse = s) : Answers ended s next [] .waiting

/-! ## One step -/

/-- A stage that still lacks bytes is the one that the sequential parse finds unfinished. -/
lemma of_received_of_missing_ne_zero {r : FrameReader} (hr : r.Valid) (h : r.missing ≠ 0) :
    Front.of r.received.reverse = .unfinished r.stage := by
  cases hr with
  | @header received missing hmissing =>
    apply of_of_length_lt
    rw [List.length_reverse]
    have hne : missing ≠ 0 := h
    dsimp only
    omega
  | @length received digits missing _ _ _ hbytes hflags hwidth hmissing =>
    have hne : missing ≠ 0 := h
    dsimp only
    rw [hbytes]
    exact of_cons_of_length_lt hflags (by omega)
  | @payload received digits body missing _ _ _ hbytes hflags hdigits hsize hmissing =>
    have hne : missing ≠ 0 := h
    dsimp only
    rw [hbytes, of_cons_append hflags hdigits, ofSize, if_neg (Nat.not_lt.mpr hsize),
      if_pos (by omega)]

/-- Bytes of the stage may be received in any pieces. -/
lemma Valid.receive {r : FrameReader} (hr : r.Valid) {piece : Bytes}
    (hpiece : piece.length ≤ r.missing) :
    Valid { r with
      received := piece.reverseAux r.received, missing := r.missing - piece.length } := by
  have hreverse : (piece.reverseAux r.received).reverse = r.received.reverse ++ piece := by
    rw [List.reverseAux_eq, List.reverse_append, List.reverse_reverse]
  cases hr with
  | header hmissing =>
    refine .header ?_
    rw [List.reverseAux_eq, List.length_append, List.length_reverse]
    dsimp only at hpiece ⊢
    omega
  | length hbytes hflags hwidth hmissing =>
    rw [hbytes, List.cons_append, List.cons_append, List.cons_append] at hreverse
    refine .length hreverse hflags hwidth ?_
    rw [List.length_append]
    dsimp only at hpiece ⊢
    omega
  | payload hbytes hflags hdigits hsize hmissing =>
    rw [hbytes, List.cons_append, List.cons_append, List.cons_append,
      List.append_assoc] at hreverse
    refine .payload hreverse hflags hdigits hsize ?_
    rw [List.length_append]
    dsimp only at hpiece ⊢
    omega

/-- A one-byte length is never above the cap. -/
lemma toNat_le_maxPayloadSize (marker : UInt8) : marker.toNat ≤ Message.maxPayloadSize := by
  have hbyte : marker.toNat < 256 := marker.toNat_lt
  have hmax : 256 ≤ Message.maxPayloadSize := by decide
  omega

/-- What completing a stage has to come to: the frame goes on with the bytes received so far, or the
read ends with the answer of the sequential parse, whatever stands behind them. -/
def Completion.Correct (r : FrameReader) : Completion → Prop
  | .proceed next => next.Valid ∧ next.received = r.received
  | .done next result =>
    next.Valid ∧ ∀ ended bs, Answers ended (r.received.reverse ++ bs) next bs (.finished result)

section Complete

variable {received digits body : Bytes} {flags command marker : UInt8}

/-- A complete header ends the read if it is compressed, and leads on to the length otherwise. -/
lemma correct_complete_header (hlen : received.length = headerSize) :
    (complete ⟨.header, received, 0⟩).Correct ⟨.header, received, 0⟩ := by
  have hthree : received.reverse.length = 3 := by
    rw [List.length_reverse]
    exact hlen
  obtain ⟨flags, command, marker, hbytes⟩ := List.length_eq_three.mp hthree
  simp only [complete, hbytes]
  split_ifs with hflags hwidth
  · refine ⟨valid_start, fun ended bs => ?_⟩
    have hfront : Front.of (flags :: command :: marker :: bs) = .compressed :=
      of_cons_of_isCompressed hflags
    dsimp only
    rw [hbytes]
    refine .finished headerSize ?_ rfl ?_
    · change firstRead ended (flags :: command :: marker :: bs) = _
      rw [firstRead, hfront]
    · change _ = (flags :: command :: marker :: bs).drop
        (Front.of (flags :: command :: marker :: bs)).skip
      rw [hfront]
      rfl
  · simp only [toPayload, if_neg (Nat.not_lt.mpr (toNat_le_maxPayloadSize marker))]
    have hannounced : announced marker [] = marker.toNat := if_pos hwidth
    have hbegun : received.reverse = flags :: command :: marker :: ([] ++ []) := hbytes
    refine ⟨.payload hbegun (by simpa using hflags) hwidth.symm ?_ ?_, rfl⟩
    · rw [hannounced]
      exact toNat_le_maxPayloadSize marker
    · rw [hannounced, List.length_nil, Nat.zero_add]
  · exact ⟨.length hbytes (by simpa using hflags) hwidth (Nat.zero_add _), rfl⟩

variable (hflags : Message.isCompressed flags = false)
  (hdigits : digits.length = CompactSize.extension marker)

include hflags hdigits

/-- A complete length ends the read if it is above the cap, and leads on to the payload
otherwise. -/
lemma correct_complete_length (hbytes : received.reverse = flags :: command :: marker :: digits)
    (hwidth : CompactSize.extension marker ≠ 0) :
    (complete ⟨.length, received, 0⟩).Correct ⟨.length, received, 0⟩ := by
  have hannounced : announced marker digits = ofLE digits := if_neg hwidth
  have hdrop : received.reverse.drop headerSize = digits := by rw [hbytes]; rfl
  simp only [complete, toPayload, hdrop]
  split_ifs with hmax
  · refine ⟨.length hbytes hflags hwidth hdigits, fun ended bs => ?_⟩
    have hfront : Front.of (received.reverse ++ bs) =
        .oversized (headerSize + CompactSize.extension marker) (ofLE digits) := by
      rw [hbytes, List.cons_append, List.cons_append, List.cons_append,
        of_cons_append hflags hdigits, ofSize, hannounced, if_pos hmax]
    have hlen : headerSize + CompactSize.extension marker = received.reverse.length := by
      rw [hbytes, ← hdigits, headerSize]
      simp only [List.length_cons]
      omega
    refine .finished (headerSize + CompactSize.extension marker) ?_ ?_ ?_
    · rw [firstRead, hfront]
    · rw [hlen, List.drop_left]
    · rw [hfront]
      rfl
  · have hbegun : received.reverse = flags :: command :: marker :: (digits ++ []) := by
      rw [hbytes, List.append_nil]
    refine ⟨.payload hbegun hflags hdigits ?_ ?_, rfl⟩
    · rw [hannounced]
      exact Nat.not_lt.mp hmax
    · rw [hannounced, List.length_nil, Nat.zero_add]

/-- A complete payload ends the read with what the frame is decoded to. -/
lemma correct_complete_payload
    (hbytes : received.reverse = flags :: command :: marker :: (digits ++ body))
    (hsize : announced marker digits ≤ Message.maxPayloadSize)
    (hbody : body.length = announced marker digits) :
    (complete ⟨.payload, received, 0⟩).Correct ⟨.payload, received, 0⟩ := by
  refine ⟨valid_start, fun ended bs => ?_⟩
  have hlen : headerSize + CompactSize.extension marker + announced marker digits =
      received.reverse.length := by
    rw [hbytes, ← hdigits, ← hbody, headerSize]
    simp only [List.length_cons, List.length_append]
    omega
  have hthere : ¬ (body ++ bs).length < announced marker digits := by
    rw [List.length_append]
    omega
  have hfront : Front.of (received.reverse ++ bs) = .frame received.reverse.length := by
    rw [← hlen, hbytes, List.cons_append, List.cons_append, List.cons_append, List.append_assoc,
      of_cons_append hflags hdigits, ofSize, if_neg (Nat.not_lt.mpr hsize), if_neg hthere]
  refine .finished received.reverse.length ?_ ?_ ?_
  · rw [firstRead, hfront]
    dsimp only
    rw [List.take_left]
  · rw [List.drop_left]
  · rw [hfront, skip, List.drop_left]
    rfl

end Complete

/-- A stage that lacks nothing is completed as the sequential parse has it. -/
lemma correct_complete {r : FrameReader} (hr : r.Valid) (h : r.missing = 0) :
    r.complete.Correct r := by
  cases hr with
  | @header received missing hmissing =>
    obtain rfl : missing = 0 := h
    exact correct_complete_header hmissing
  | @length received digits missing _ _ _ hbytes hflags hwidth hmissing =>
    obtain rfl : missing = 0 := h
    exact correct_complete_length hflags hmissing hbytes hwidth
  | @payload received digits body missing _ _ _ hbytes hflags hdigits hsize hmissing =>
    obtain rfl : missing = 0 := h
    exact correct_complete_payload hflags hdigits hbytes hsize hmissing

/-- One step keeps the reader valid and the stream together, and if it ends the read, it does so as
the sequential parse has it. -/
lemma step_spec {r : FrameReader} (hr : r.Valid) (limit : Nat) (bs : Bytes) (ended : Bool) :
    ∃ next rest outcome,
      r.step limit (.ofStream bs ended) = (next, .ofStream rest ended, outcome) ∧ next.Valid ∧
        match outcome with
        | none => next.received.reverse ++ rest = r.received.reverse ++ bs
        | some outcome => Answers ended (r.received.reverse ++ bs) next rest outcome := by
  by_cases hmissing : r.missing = 0
  · have hcorrect := correct_complete hr hmissing
    unfold step
    rw [if_pos hmissing]
    cases hcomplete : r.complete with
    | proceed next =>
      rw [hcomplete] at hcorrect
      obtain ⟨hvalid, hreceived⟩ := hcorrect
      exact ⟨next, bs, none, rfl, hvalid, by rw [hreceived]⟩
    | done next result =>
      rw [hcomplete] at hcorrect
      obtain ⟨hvalid, hanswers⟩ := hcorrect
      exact ⟨next, bs, some (.finished result), rfl, hvalid, hanswers ended bs⟩
  · have hopen : (Inlet.ofStream bs ended).ending ≠ some .reset := by
      cases ended <;> simp [Inlet.ofStream]
    unfold step
    rw [if_neg hmissing, if_neg hopen]
    cases bs with
    | nil =>
      have hfront := of_received_of_missing_ne_zero hr hmissing
      rw [List.append_nil]
      cases ended with
      | false =>
        refine ⟨r, [], some .waiting, rfl, hr, .waiting ?_ rfl⟩
        rw [firstRead, hfront]
        rfl
      | true =>
        refine ⟨r, [], some (.finished _), rfl, hr, .finished r.received.reverse.length ?_ ?_ ?_⟩
        · rw [firstRead, hfront]
          rfl
        · rw [List.drop_length]
        · rw [hfront, List.append_nil]
          rfl
    | cons b bs =>
      -- The piece is split off the front, so that bytes received and bytes left stay together.
      refine ⟨_, _, none, rfl, hr.receive ?_, ?_⟩
      · rw [List.length_take]
        omega
      · dsimp only [Inlet.ofStream]
        rw [List.reverseAux_eq, List.reverse_append, List.reverse_reverse, List.append_assoc,
          List.prefix_iff_eq_append.mp (List.take_prefix ..)]

/-! ## A whole read -/

variable {limit : Nat} {r next : FrameReader} {inlet rest : Inlet}

/-- A step that ends the read. -/
lemma read_of_step_eq_some {outcome : Outcome}
    (h : r.step limit inlet = (next, rest, some outcome)) :
    r.read limit inlet = (next, rest, outcome) := by
  rw [read]
  split
  · simp_all
  · simp_all

/-- A step that another one follows. -/
lemma read_of_step_eq_none (h : r.step limit inlet = (next, rest, none)) :
    r.read limit inlet = next.read limit rest := by
  rw [read]
  split
  · simp_all
  · simp_all

/-- A read ends with the answer of the sequential parse, or waits if there is none, and leaves the
stream where the parse goes on. -/
theorem read_spec (limit : Nat) {r : FrameReader} (hr : r.Valid) (bs : Bytes) (ended : Bool) :
    ∃ next rest outcome,
      r.read limit (.ofStream bs ended) = (next, .ofStream rest ended, outcome) ∧ next.Valid ∧
        Answers ended (r.received.reverse ++ bs) next rest outcome := by
  generalize hinlet : Inlet.ofStream bs ended = inlet
  -- The induction is on the steps of the read; the bytes held and unread stay the same in total.
  induction r, inlet using read.induct limit generalizing bs with
  | case1 r inlet next rest outcome hstep =>
    obtain ⟨next', rest', outcome', hstep', hvalid, hanswers⟩ := step_spec hr limit bs ended
    subst hinlet
    rw [hstep, Prod.mk.injEq, Prod.mk.injEq] at hstep'
    obtain ⟨rfl, rfl, rfl⟩ := hstep'
    exact ⟨next, rest', outcome, read_of_step_eq_some hstep, hvalid, hanswers⟩
  | case2 r inlet next rest hstep ih =>
    obtain ⟨next', rest', outcome', hstep', hvalid, htogether⟩ := step_spec hr limit bs ended
    subst hinlet
    rw [hstep, Prod.mk.injEq, Prod.mk.injEq] at hstep'
    obtain ⟨rfl, rfl, rfl⟩ := hstep'
    obtain ⟨last, left, outcome, hread, hlast, hanswers⟩ := ih hvalid rest' rfl
    rw [htogether] at hanswers
    exact ⟨last, left, outcome, (read_of_step_eq_none hstep).trans hread, hlast, hanswers⟩

end FrameReader

end PeerNet
