import PeerNet.Proofs.Frame.Reader

/-!
# Reading on any schedule

Bytes arrive when they like and in pieces of any size, a read is polled when its task is run, the
stream hands over as few bytes at a time as it likes, and a read that waits may be given up and
started anew.  `FrameReader.Event` lists what can happen, `FrameReader.Run` is a reader to which it
happens, and a schedule is any list of events.

None of it shows in the results.  `Run.Sound` says that the results so far are those of the
sequential parse of the bytes that have arrived, and that the reader stands where the parse goes on.
Every event keeps it, so it holds after every schedule.
-/

namespace PeerNet

namespace FrameReader

/-- What can happen to a stream and to the task that reads from it. -/
inductive Event
  /-- More bytes arrive. -/
  | arrive (chunk : Bytes)
  /-- The stream ends; nothing arrives afterwards. -/
  | finish
  /-- A read is started, unless one is under way. -/
  | call
  /-- The read under way goes on; the stream hands over at most `limit + 1` bytes at a time. -/
  | poll (limit : Nat)
  /-- The read under way is given up. -/
  | cancel

/-- A reader and its stream in the course of a schedule. -/
structure Run where
  reader : FrameReader
  /-- The bytes that have arrived and have not been read. -/
  unread : Bytes
  ended : Bool
  underWay : Bool
  /-- All bytes that have arrived. -/
  stream : Bytes
  /-- The results of the completed reads, each with the number of bytes taken up to then. -/
  results : List (Except TransportError Message × Nat)

namespace Run

/-- Nothing has happened yet. -/
def start : Run := ⟨FrameReader.start, [], false, false, [], []⟩

/-- One thing happens. -/
def advance (ρ : Run) : Event → Run
  | .arrive chunk =>
    if ρ.ended then ρ
    else { ρ with unread := ρ.unread ++ chunk, stream := ρ.stream ++ chunk }
  | .finish => { ρ with ended := true }
  | .call => { ρ with underWay := true }
  | .poll limit =>
    if ρ.underWay then
      match ρ.reader.read limit (.ofStream ρ.unread ρ.ended) with
      | (reader, inlet, .waiting) => { ρ with reader, unread := inlet.arrived }
      | (reader, inlet, .finished result) =>
        { ρ with
          reader
          unread := inlet.arrived
          underWay := false
          results := ρ.results ++ [(result, ρ.stream.length - inlet.arrived.length)] }
    else ρ
  | .cancel => { ρ with underWay := false }

/-- What a schedule leads to. -/
def after (σ : List Event) : Run := σ.foldl advance start

/-- The schedule on which a stream is there at once, and a number of reads follow. -/
def atOnce (s : Bytes) (ended : Bool) (limit reads : Nat) : List Event :=
  .arrive s :: ((if ended then [.finish] else []) ++
    (List.replicate reads [.call, .poll limit]).flatten)

/-! ## The invariant -/

/-- The results are those of the sequential parse of what has arrived, and the reader stands where
the parse goes on. -/
structure Sound (ρ : Run) : Prop where
  valid : ρ.reader.Valid
  together : ρ.reader.received.reverse ++ ρ.unread =
    ρ.stream.drop (readStart ρ.stream ρ.results.length)
  answered : ∀ n x, ρ.results[n]? = some x → nthRead ρ.ended ρ.stream n = some x

variable {ρ : Run}

/-- Before anything arrives, nothing is read. -/
lemma sound_start : start.Sound := ⟨valid_start, rfl, fun _ _ h => by simp [start] at h⟩

/-- Bytes that arrive change no result, and stand behind the others. -/
lemma Sound.arrive (h : ρ.Sound) (chunk : Bytes) : (ρ.advance (.arrive chunk)).Sound := by
  rw [advance]
  split_ifs with hended
  · exact h
  · rw [Bool.not_eq_true] at hended
    have hanswered := h.answered
    rw [hended] at hanswered
    -- Every completed read had its answer before the chunk, so the parse starts where it started.
    have hsome : ∀ i < ρ.results.length, nthRead false ρ.stream i ≠ none := by
      intro i hi
      rw [hanswered i _ (List.getElem?_eq_getElem hi)]
      exact Option.some_ne_none _
    refine ⟨h.valid, ?_, fun n x hx => ?_⟩
    · dsimp only
      rw [readStart_append hsome, List.drop_append_of_le_length (readStart_le_length _ _),
        ← h.together, List.append_assoc]
    · exact nthRead_append (hanswered n x hx) _ _

/-- The end of the stream changes no result. -/
lemma Sound.finish (h : ρ.Sound) : (ρ.advance .finish).Sound := by
  refine ⟨h.valid, h.together, fun n x hx => ?_⟩
  have hanswered := h.answered n x hx
  change nthRead true ρ.stream n = some x
  cases hended : ρ.ended with
  | true =>
    rw [hended] at hanswered
    exact hanswered
  | false =>
    rw [hended] at hanswered
    have hread := nthRead_append hanswered true []
    rw [List.append_nil] at hread
    exact hread

/-- A poll of the read under way brings the next result, if there is one, and leaves the reader
where the parse goes on. -/
lemma Sound.poll (h : ρ.Sound) (hunderWay : ρ.underWay = true) (limit : Nat) :
    (ρ.advance (.poll limit)).Sound ∧
      (ρ.advance (.poll limit)).results = ρ.results ++
        (nthRead ρ.ended ρ.stream ρ.results.length).toList := by
  obtain ⟨next, rest, outcome, hread, hvalid, hanswers⟩ :=
    read_spec limit h.valid ρ.unread ρ.ended
  rw [h.together] at hanswers
  rw [advance, if_pos hunderWay, hread]
  cases hanswers with
  | waiting hfirst hnext =>
    have hnone : nthRead ρ.ended ρ.stream ρ.results.length = none := by rw [nthRead, hfirst]; rfl
    refine ⟨⟨hvalid, ?_, h.answered⟩, ?_⟩
    · rw [← hnext]
      exact List.append_nil _
    · rw [hnone]
      exact (List.append_nil _).symm
  | finished used hfirst hrest hnext =>
    rename_i result
    have hused := used_le_length_of_firstRead hfirst
    have hstart := readStart_le_length ρ.stream ρ.results.length
    have htaken : ρ.stream.length - rest.length =
        readStart ρ.stream ρ.results.length + used := by
      rw [List.length_drop] at hused
      rw [hrest, List.length_drop, List.length_drop]
      omega
    have hnth : nthRead ρ.ended ρ.stream ρ.results.length =
        some (result, ρ.stream.length - rest.length) := by
      rw [nthRead, hfirst, htaken]
      rfl
    refine ⟨⟨hvalid, ?_, fun n x hx => ?_⟩, ?_⟩
    · dsimp only [Inlet.ofStream]
      rw [hnext, List.drop_drop, List.length_append, List.length_singleton, readStart]
    · dsimp only [Inlet.ofStream] at hx
      rcases Nat.lt_trichotomy n ρ.results.length with hn | rfl | hn
      · rw [List.getElem?_append_left hn] at hx
        exact h.answered n x hx
      · rw [List.getElem?_concat_length] at hx
        exact hnth.trans hx
      · rw [List.getElem?_eq_none (by simpa using hn)] at hx
        exact absurd hx (by simp)
    · rw [hnth]
      rfl

/-- Every event keeps the results those of the sequential parse. -/
lemma Sound.advance (h : ρ.Sound) (event : Event) : (ρ.advance event).Sound := by
  cases event with
  | arrive chunk => exact h.arrive chunk
  | finish => exact h.finish
  | call => exact ⟨h.valid, h.together, h.answered⟩
  | poll limit =>
    cases hunderWay : ρ.underWay with
    | true => exact (h.poll hunderWay limit).1
    | false =>
      rw [Run.advance, hunderWay]
      exact h
  | cancel => exact ⟨h.valid, h.together, h.answered⟩

/-- After every schedule the results are those of the sequential parse. -/
lemma sound_after (σ : List Event) : (after σ).Sound := by
  induction σ using List.reverseRecOn with
  | nil => exact sound_start
  | append_singleton σ event ih =>
    rw [after, List.foldl_append]
    exact ih.advance event

/-! ## Schedules on which everything is there at once -/

/-- A read from beginning to end brings the next result, if there is one. -/
lemma results_call_poll (σ : List Event) (limit : Nat) :
    (after (σ ++ [.call, .poll limit])).results = (after σ).results ++
      (nthRead (after σ).ended (after σ).stream (after σ).results.length).toList := by
  have hcall : ((after σ).advance .call).Sound := (sound_after σ).advance .call
  have hpoll := (hcall.poll rfl limit).2
  rw [after, List.foldl_append]
  exact hpoll

/-- A read changes neither the stream nor its end. -/
lemma stream_advance_poll (ρ : Run) (limit : Nat) :
    (ρ.advance (.poll limit)).stream = ρ.stream ∧ (ρ.advance (.poll limit)).ended = ρ.ended := by
  rw [advance]
  split
  · split <;> exact ⟨rfl, rfl⟩
  · exact ⟨rfl, rfl⟩

variable (s : Bytes) (ended : Bool) (limit : Nat)

/-- One more read is one more call that is polled. -/
lemma atOnce_succ (reads : Nat) :
    atOnce s ended limit (reads + 1) = atOnce s ended limit reads ++ [.call, .poll limit] := by
  simp [atOnce, List.replicate_succ']

/-- A schedule that starts with the whole stream ends with it. -/
lemma stream_atOnce (reads : Nat) :
    (after (atOnce s ended limit reads)).stream = s ∧
      (after (atOnce s ended limit reads)).ended = ended := by
  induction reads with
  | zero => cases ended <;> exact ⟨rfl, rfl⟩
  | succ reads ih =>
    have hpoll := stream_advance_poll ((after (atOnce s ended limit reads)).advance .call) limit
    rw [atOnce_succ, after, List.foldl_append]
    exact ⟨hpoll.1.trans ih.1, hpoll.2.trans ih.2⟩

/-- Of a stream that is there at once every read that has an answer is completed. -/
lemma lt_length_results_atOnce {n reads : Nat} (hn : n < reads) (h : nthRead ended s n ≠ none) :
    n < (after (atOnce s ended limit reads)).results.length := by
  induction reads generalizing n with
  | zero => exact absurd hn (Nat.not_lt_zero n)
  | succ reads ih =>
    obtain ⟨hstream, hended⟩ := stream_atOnce s ended limit reads
    rw [atOnce_succ, results_call_poll, hstream, hended]
    set done := (after (atOnce s ended limit reads)).results.length with hdone
    rcases Nat.lt_or_ge n done with hlt | hge
    · rw [List.length_append]
      omega
    · have hnext : nthRead ended s done ≠ none :=
        fun hnone => h (nthRead_eq_none_of_le hnone hge)
      obtain ⟨x, hx⟩ := Option.ne_none_iff_exists'.mp hnext
      rw [hx, Option.toList_some, List.length_append, List.length_singleton, ← hdone]
      by_contra hmany
      -- Otherwise the read after those completed would have been completed before.
      have hearlier := ih (n := done) (by omega) hnext
      omega

/-- The completed reads of a stream that is there at once. -/
lemma results_atOnce {n reads : Nat} (hn : n < reads) :
    (after (atOnce s ended limit reads)).results[n]? = nthRead ended s n := by
  obtain ⟨hstream, hended⟩ := stream_atOnce s ended limit reads
  have hanswered := (sound_after (atOnce s ended limit reads)).answered n
  rw [hstream, hended] at hanswered
  cases hread : (after (atOnce s ended limit reads)).results[n]? with
  | some x => exact (hanswered x hread).symm
  | none =>
    by_contra hnone
    have hlt := lt_length_results_atOnce s ended limit hn (Ne.symm hnone)
    rw [List.getElem?_eq_getElem hlt] at hread
    exact absurd hread (Option.some_ne_none _)

/-! ## Schedule independence -/

/-- After any schedule, each completed read has the result, and has taken the bytes, that the
sequential parse of the stream gives it and that it would have had if the stream had been there at
once.  Whenever a read is called and polled, the next result of the parse is there, or the read
waits because there is none.  The parse goes from front to front. -/
theorem results_after (σ : List Event) :
    (∀ n x, (after σ).results[n]? = some x →
      nthRead (after σ).ended (after σ).stream n = some x ∧
      ∀ limit,
        (after (atOnce (after σ).stream (after σ).ended limit (n + 1))).results[n]? = some x) ∧
    (∀ limit,
      (after (σ ++ [.call, .poll limit])).results[(after σ).results.length]? =
        nthRead (after σ).ended (after σ).stream (after σ).results.length) ∧
    ∀ s ended n, match Front.of (s.drop (readStart s n)) with
      | .frame size =>
        nthRead ended s n =
          some ((Message.decode ((s.drop (readStart s n)).take size)).mapError .undecodable,
            readStart s n + size) ∧
        readStart s (n + 1) = readStart s n + size
      | .compressed =>
        nthRead ended s n = some (.error .compressed, readStart s n + 3) ∧
        readStart s (n + 1) = readStart s n + 3
      | .oversized used size =>
        ∀ k ≥ n, nthRead ended s k = some (.error (.oversizedPayload size), readStart s n + used)
      | .unfinished stage =>
        ∀ k ≥ n, nthRead ended s k =
          if ended then some (.error (.stream (.closedWhileReading stage)), s.length)
          else none := by
  refine ⟨fun n x hx => ?_, fun limit => ?_, fun s ended => nthRead_of_front ended s⟩
  · have hread := (sound_after σ).answered n x hx
    refine ⟨hread, fun limit => ?_⟩
    rw [results_atOnce _ _ _ (Nat.lt_succ_self n), hread]
  · rw [results_call_poll]
    cases nthRead (after σ).ended (after σ).stream (after σ).results.length with
    | none =>
      rw [Option.toList_none, List.append_nil]
      exact List.getElem?_eq_none (Nat.le_refl _)
    | some x => exact List.getElem?_concat_length

/-- A ping of which a first piece arrives, is read one byte at a time by a read that has to wait and
is given up, and of which the rest is found by another read. -/
theorem results_after_ping_in_pieces :
    (after ([.arrive ((Message.ping ⟨7, 8, 9⟩).encode.take 5), .call, .poll 0, .cancel,
      .arrive ((Message.ping ⟨7, 8, 9⟩).encode.drop 5)] ++ [.call, .poll 0])).results[0]? =
        some (.ok (.ping ⟨7, 8, 9⟩), 15) := by
  have hnext := (results_after [.arrive ((Message.ping ⟨7, 8, 9⟩).encode.take 5), .call, .poll 0,
    .cancel, .arrive ((Message.ping ⟨7, 8, 9⟩).encode.drop 5)]).2.1 0
  set waiting := after [.arrive ((Message.ping ⟨7, 8, 9⟩).encode.take 5), .call, .poll 0]
  have hresults : waiting.results = [] :=
    results_call_poll [.arrive ((Message.ping ⟨7, 8, 9⟩).encode.take 5)] 0
  obtain ⟨hstream, hended⟩ : waiting.stream = (Message.ping ⟨7, 8, 9⟩).encode.take 5 ∧
      waiting.ended = false :=
    stream_advance_poll (after [.arrive ((Message.ping ⟨7, 8, 9⟩).encode.take 5), .call]) 0
  have hlater : after [.arrive ((Message.ping ⟨7, 8, 9⟩).encode.take 5), .call, .poll 0, .cancel,
      .arrive ((Message.ping ⟨7, 8, 9⟩).encode.drop 5)] =
        { waiting with
          underWay := false
          unread := waiting.unread ++ (Message.ping ⟨7, 8, 9⟩).encode.drop 5
          stream := waiting.stream ++ (Message.ping ⟨7, 8, 9⟩).encode.drop 5 } := by
    change (waiting.advance .cancel).advance (.arrive _) = _
    exact if_neg (by rw [advance, hended]; exact Bool.false_ne_true)
  rw [hlater] at hnext
  dsimp only at hnext
  rw [hresults, hended, hstream] at hnext
  exact hnext

end Run

end FrameReader

end PeerNet
