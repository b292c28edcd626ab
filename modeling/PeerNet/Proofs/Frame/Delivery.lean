import PeerNet.Frame.Writer
import PeerNet.Proofs.Frame.Leading
import PeerNet.Proofs.Frame.Schedule
import PeerNet.Proofs.Message.Bounds

/-!
# Reading what a broken stream has taken

A stream that takes a limited number of bytes cuts a sequence of frames at any byte.  What it has
taken are the frames of the messages whose write succeeded, and then the beginning of one more
frame, or nothing (`Outlet.leads_taken`).  A beginning of a frame is no frame, so a reader that goes
over these bytes gets the messages whose write succeeded, and then finds out that the stream has
ended.
-/

namespace PeerNet

/-! ## Reading a sequence of frames -/

/-- A frame of which a byte is missing is not finished. -/
lemma Front.of_properPrefix {m : Message} (hsize : m.encodePayload.length ≤ Message.maxPayloadSize)
    {p : Bytes} (hbegins : p <+: m.encode) (hproper : p ≠ m.encode) :
    ∃ stage, Front.of p = .unfinished stage := by
  by_contra hfinished
  obtain ⟨more, hmore⟩ := hbegins
  -- Otherwise the whole frame would stand there already.
  have hsame := Front.of_append (fun stage hstage => hfinished ⟨stage, hstage⟩) more
  have hframe : Front.of m.encode = .frame m.encode.length := by
    have hflags : Message.isCompressed (0 : UInt8) = false := by decide
    have hwhole := Front.of_frame hflags m.command.code hsize []
    rw [List.append_nil] at hwhole
    rw [Message.encode, hwhole, List.length_cons, List.length_cons]
    congr 1
    omega
  rw [hmore, hframe] at hsame
  have hknown := Front.known_le_length p
  rw [← hsame] at hknown
  refine hproper (List.IsPrefix.eq_of_length_le ⟨more, hmore⟩ hknown)

/-- What a read comes to that finds the message at a place of a list, or the end of the stream. -/
def FrameReader.resultAt (messages : List Message) (stage : FrameStage) (n : Nat) :
    Except TransportError Message :=
  match messages[n]? with
  | some m => .ok m
  | none => .error (.stream (.closedWhileReading stage))

namespace Leads

variable {s rest : Bytes} {messages : List Message} {n : Nat}

/-- After a number of reads the reading goes on behind as many frames. -/
lemma drop_readStart (h : Leads s messages rest) (hn : n ≤ messages.length) :
    Leads (s.drop (readStart s n)) (messages.drop n) rest := by
  induction n with
  | zero => exact h
  | succ n ih =>
    have hlead := ih (Nat.le_of_succ_le hn)
    rw [List.drop_eq_getElem_cons hn] at hlead
    generalize hwhole : s.drop (readStart s n) = front at hlead
    cases hlead with
    | @cons _ tail _ _ _ hframe hothers =>
      have hdecoder := Message.decoder_append_of_decode hframe tail
      obtain ⟨used, hread, hdrop⟩ := firstRead_of_decoder hdecoder false
      have hskip := FrameReader.skip_eq_of_firstRead hread
      rw [readStart, ← List.drop_drop, hwhole, hskip, hdrop]
      exact hothers

/-- As long as there are frames each read brings the next message. -/
lemma nthRead_of_lt (h : Leads s messages rest) (hn : n < messages.length) (ended : Bool) :
    ∃ used, nthRead ended s n = some (.ok messages[n], used) := by
  have hlead := h.drop_readStart hn.le
  rw [List.drop_eq_getElem_cons hn] at hlead
  generalize hwhole : s.drop (readStart s n) = front at hlead
  cases hlead with
  | @cons _ tail _ _ _ hframe _ =>
    have hdecoder := Message.decoder_append_of_decode hframe tail
    obtain ⟨used, hread, -⟩ := firstRead_of_decoder hdecoder ended
    exact ⟨readStart s n + used, by rw [nthRead, hwhole, hread]; rfl⟩

/-- Behind the frames every read finds out that the stream has ended. -/
lemma nthRead_of_ge (h : Leads s messages rest) {stage : FrameStage}
    (hfront : Front.of rest = .unfinished stage) (hn : messages.length ≤ n) :
    nthRead true s n = some (.error (.stream (.closedWhileReading stage)), s.length) := by
  have hlead := h.drop_readStart (Nat.le_refl messages.length)
  rw [List.drop_length] at hlead
  generalize hwhole : s.drop (readStart s messages.length) = front at hlead
  cases hlead with
  | nil =>
    have hreads := nthRead_of_front true s messages.length
    rw [hwhole, hfront] at hreads
    exact hreads n hn

/-- What a read comes to at the end of a stream of frames. -/
lemma nthRead_eq (h : Leads s messages rest) {stage : FrameStage}
    (hfront : Front.of rest = .unfinished stage) (n : Nat) :
    ∃ used, nthRead true s n = some (FrameReader.resultAt messages stage n, used) := by
  rw [FrameReader.resultAt]
  rcases Nat.lt_or_ge n messages.length with hn | hn
  · obtain ⟨used, hread⟩ := h.nthRead_of_lt hn true
    rw [List.getElem?_eq_getElem hn]
    exact ⟨used, hread⟩
  · rw [List.getElem?_eq_none hn]
    exact ⟨s.length, h.nthRead_of_ge hfront hn⟩

end Leads

/-! ## Writing to a stream that breaks -/

namespace Outlet

/-- Writes messages one after the other, whatever comes of each. -/
def writeEach (o : Outlet) : List Message → Outlet × List (Except TransportError Unit)
  | [] => (o, [])
  | m :: rest =>
    let (o, result) := o.write m
    let (o, results) := o.writeEach rest
    (o, result :: results)

/-- The messages whose write succeeded. -/
def delivered (messages : List Message) (results : List (Except TransportError Unit)) :
    List Message :=
  (messages.zip results).filterMap fun (m, result) => result.toOption.map fun _ => m

variable {o : Outlet} {room : Nat} {m : Message} {messages : List Message}

/-- A frame for which there is room is taken as a whole. -/
lemma write_of_le (hroom : o.room = some room) (hfits : m.encode.length ≤ room) :
    o.write m = (⟨m.encode :: o.pieces, some (room - m.encode.length)⟩, .ok ()) := by
  rw [write, writeBytes, hroom]
  dsimp only
  rw [if_pos hfits]
  rfl

/-- Of any other frame the beginning is taken, and nothing is taken afterwards. -/
lemma write_of_lt (hroom : o.room = some room) (hcut : room < m.encode.length) :
    o.write m =
      (⟨m.encode.take room :: o.pieces, some 0⟩, .error (.stream .brokenPipe)) := by
  rw [write, writeBytes, hroom]
  dsimp only
  rw [if_neg (Nat.not_le_of_lt hcut)]
  rfl

lemma taken_cons (piece : Bytes) (pieces : List Bytes) (room room' : Option Nat) :
    (⟨piece :: pieces, room⟩ : Outlet).taken = (⟨pieces, room'⟩ : Outlet).taken ++ piece := by
  simp [taken]

/-- Messages are written one after the other, each to the outlet that the last one left. -/
lemma writeEach_cons (o : Outlet) (m : Message) (messages : List Message) :
    o.writeEach (m :: messages) =
      (((o.write m).1.writeEach messages).1,
       (o.write m).2 :: ((o.write m).1.writeEach messages).2) :=
  rfl

/-- No frame fits into no room. -/
lemma length_encode_pos (m : Message) : 0 < m.encode.length :=
  List.length_pos_iff.mpr m.encode_ne_nil

/-- Of all frames the stream takes as many bytes as there is room for. -/
lemma taken_writeEach (hroom : o.room = some room) :
    (o.writeEach messages).1.taken =
      o.taken ++ (messages.flatMap Message.encode).take room := by
  induction messages generalizing o room with
  | nil => simp [writeEach]
  | cons m messages ih =>
    rw [writeEach_cons, List.flatMap_cons, List.take_append]
    rcases Nat.lt_or_ge room m.encode.length with hcut | hfits
    · have hnone : room - m.encode.length = 0 := by omega
      rw [write_of_lt hroom hcut]
      dsimp only
      rw [ih rfl, taken_cons _ _ _ o.room, hnone, List.append_assoc]
    · rw [write_of_le hroom hfits]
      dsimp only
      rw [ih rfl, taken_cons _ _ _ o.room, List.take_of_length_le hfits, List.append_assoc]

lemma length_writeEach (o : Outlet) (messages : List Message) :
    (o.writeEach messages).2.length = messages.length := by
  induction messages generalizing o with
  | nil => rfl
  | cons m messages ih => rw [writeEach_cons, List.length_cons, ih, List.length_cons]

/-- A write succeeds if there is room for its frame and all frames before. -/
lemma getElem?_writeEach (hroom : o.room = some room) {i : Nat} (hi : i < messages.length) :
    (o.writeEach messages).2[i]? = some
      (if ((messages.take (i + 1)).flatMap Message.encode).length ≤ room then .ok ()
        else .error (.stream .brokenPipe)) := by
  induction messages generalizing o room i with
  | nil => exact absurd hi (Nat.not_lt_zero i)
  | cons m messages ih =>
    rw [writeEach_cons, List.take_succ_cons, List.flatMap_cons, List.length_append]
    rcases Nat.lt_or_ge room m.encode.length with hcut | hfits
    · rw [write_of_lt hroom hcut, if_neg (by omega)]
      cases i with
      | zero => rfl
      | succ i =>
        -- There is no room left, and the frames that follow are not empty.
        have hi' : i < messages.length := Nat.lt_of_succ_lt_succ hi
        have hmore : ((messages.take (i + 1)).flatMap Message.encode) ≠ [] := by
          rw [List.take_succ_eq_append_getElem hi', List.flatMap_append, List.flatMap_singleton]
          exact List.append_ne_nil_of_right_ne_nil _ (Message.encode_ne_nil _)
        rw [List.getElem?_cons_succ, ih rfl hi',
          if_neg (Nat.not_le_of_lt (List.length_pos_iff.mpr hmore))]
    · rw [write_of_le hroom hfits]
      cases i with
      | zero => simp [hfits]
      | succ i =>
        have hi' : i < messages.length := Nat.lt_of_succ_lt_succ hi
        have hroom' : ((messages.take (i + 1)).flatMap Message.encode).length ≤
            room - m.encode.length ↔
              m.encode.length + ((messages.take (i + 1)).flatMap Message.encode).length ≤
                room := by omega
        rw [List.getElem?_cons_succ, ih rfl hi', if_congr hroom' rfl rfl]

lemma delivered_cons_ok (m : Message) (messages : List Message)
    (results : List (Except TransportError Unit)) :
    delivered (m :: messages) (.ok () :: results) = m :: delivered messages results := rfl

lemma delivered_cons_error (m : Message) (messages : List Message) (e : TransportError)
    (results : List (Except TransportError Unit)) :
    delivered (m :: messages) (.error e :: results) = delivered messages results := rfl

/-- Without room nothing is delivered. -/
lemma delivered_of_full (hroom : o.room = some 0) (messages : List Message) :
    delivered messages (o.writeEach messages).2 = [] := by
  induction messages generalizing o with
  | nil => rfl
  | cons m messages ih =>
    rw [writeEach_cons, write_of_lt hroom (length_encode_pos m), delivered_cons_error]
    exact ih rfl

/-- What a stream takes of frames are those of the messages whose write succeeded, and then at most
a beginning of one. -/
lemma leads_taken (hroom : o.room = some room)
    (hmessages : ∀ m ∈ messages, m.Normal ∧ m.WithinLimits) :
    ∃ rest stage, Front.of rest = .unfinished stage ∧
      Leads ((messages.flatMap Message.encode).take room)
        (delivered messages (o.writeEach messages).2) rest := by
  induction messages generalizing o room with
  | nil =>
    rw [List.flatMap_nil, List.take_nil]
    exact ⟨[], .header, rfl, .nil []⟩
  | cons m messages ih =>
    obtain ⟨⟨hnormal, hlimits⟩, hothers⟩ := List.forall_mem_cons.mp hmessages
    rw [List.flatMap_cons, List.take_append, writeEach_cons]
    rcases Nat.lt_or_ge room m.encode.length with hcut | hfits
    · have hnone : room - m.encode.length = 0 := by omega
      have hproper : m.encode.take room ≠ m.encode := by
        intro hsame
        have hlength := congrArg List.length hsame
        rw [List.length_take] at hlength
        omega
      obtain ⟨stage, hfront⟩ :=
        Front.of_properPrefix hlimits.1 (List.take_prefix room m.encode) hproper
      rw [write_of_lt hroom hcut, delivered_cons_error, delivered_of_full rfl, hnone,
        List.take_zero, List.append_nil]
      exact ⟨_, stage, hfront, .nil _⟩
    · obtain ⟨rest, stage, hfront, hlead⟩ :=
        ih (o := ⟨m.encode :: o.pieces, some (room - m.encode.length)⟩) rfl hothers
      rw [write_of_le hroom hfits, delivered_cons_ok, List.take_of_length_le hfits]
      exact ⟨rest, stage, hfront, .cons (Message.decode_encode hnormal hlimits) hlead⟩

/-! ## Both ends -/

open FrameReader in
/-- Messages within the limits of the wire are written one after the other to a stream that takes
`room` bytes.  The first `room` bytes of their frames are taken, and a write succeeds if there is
room for its frame and all frames before it, and fails since the stream is broken otherwise.

Whenever a reader goes over the bytes that were taken, in whatever pieces they arrive and however
often a read is given up, until the stream has ended: its results are the messages whose write
succeeded, in order, and then that the stream ended early, and every further read has its result at
once. -/
theorem reads_delivered_then_end (messages : List Message) (room : Nat)
    (hmessages : ∀ m ∈ messages, m.Normal ∧ m.WithinLimits) :
    let written := (ofRoom (some room)).writeEach messages
    written.1.taken = (messages.flatMap Message.encode).take room ∧
    written.2.length = messages.length ∧
    (∀ i < messages.length, written.2[i]? = some
      (if ((messages.take (i + 1)).flatMap Message.encode).length ≤ room then .ok ()
        else .error (.stream .brokenPipe))) ∧
    ∃ stage, ∀ σ : List Event, (Run.after σ).stream = written.1.taken →
      (Run.after σ).ended = true →
      (∀ n x, (Run.after σ).results[n]? = some x →
        x.1 = resultAt (delivered messages written.2) stage n) ∧
      ∀ limit, ∃ used, (Run.after (σ ++ [.call, .poll limit])).results =
        (Run.after σ).results ++
          [(resultAt (delivered messages written.2) stage (Run.after σ).results.length, used)] := by
  intro written
  have htaken : written.1.taken = (messages.flatMap Message.encode).take room :=
    taken_writeEach rfl
  obtain ⟨rest, stage, hfront, hlead⟩ := leads_taken (o := ofRoom (some room)) rfl hmessages
  refine ⟨htaken, length_writeEach _ messages, fun i hi => getElem?_writeEach rfl hi, stage, ?_⟩
  intro σ hstream hended
  rw [htaken] at hstream
  constructor
  · intro n x hx
    have hanswer := (Run.sound_after σ).answered n x hx
    obtain ⟨used, hread⟩ := hlead.nthRead_eq hfront n
    rw [hstream, hended, hread] at hanswer
    exact (congrArg Prod.fst (Option.some.inj hanswer)).symm
  · intro limit
    obtain ⟨used, hread⟩ := hlead.nthRead_eq hfront (Run.after σ).results.length
    refine ⟨used, ?_⟩
    rw [Run.results_call_poll, hstream, hended, hread]
    rfl

open FrameReader in
/-- Of two pings the second is cut in the middle: the reader gets the first and then finds the
end. -/
theorem reads_delivered_then_end_of_pings :
    ∃ stage a b, (Run.after
        [.arrive ((ofRoom (some 22)).writeEach [.ping ⟨1, 2, 3⟩, .ping ⟨4, 5, 6⟩]).1.taken,
          .finish, .call, .poll 1, .call, .poll 1]).results =
      [(.ok (.ping ⟨1, 2, 3⟩), a), (.error (.stream (.closedWhileReading stage)), b)] := by
  have hmessages : ∀ m ∈ [Message.ping ⟨1, 2, 3⟩, .ping ⟨4, 5, 6⟩], m.Normal ∧ m.WithinLimits := by
    intro m hm
    rcases List.mem_pair.mp hm with rfl | rfl
    · exact ⟨trivial, by decide, trivial⟩
    · exact ⟨trivial, by decide, trivial⟩
  obtain ⟨-, -, -, stage, hreads⟩ :=
    reads_delivered_then_end [.ping ⟨1, 2, 3⟩, .ping ⟨4, 5, 6⟩] 22 hmessages
  set taken := ((ofRoom (some 22)).writeEach [.ping ⟨1, 2, 3⟩, .ping ⟨4, 5, 6⟩]).1.taken
  obtain ⟨a, hfirst⟩ := (hreads [.arrive taken, .finish] rfl rfl).2 1
  obtain ⟨hstream, hended⟩ :=
    Run.stream_advance_poll (Run.after [.arrive taken, .finish, .call]) 1
  obtain ⟨b, hsecond⟩ := (hreads [.arrive taken, .finish, .call, .poll 1] hstream hended).2 1
  refine ⟨stage, a, b, hsecond.trans ?_⟩
  have hdone : (Run.after [.arrive taken, .finish, .call, .poll 1]).results =
      [(.ok (.ping ⟨1, 2, 3⟩), a)] := hfirst
  rw [hdone]
  rfl

end Outlet

end PeerNet
