import PeerNet.Frame.Error
import PeerNet.Message.Basic

/-!
# Reading messages from a stream

A stream delivers its bytes in pieces of any size, and a read may be given up while it waits. The
reader therefore keeps the part of the frame that has arrived, and how many bytes its present
stage still lacks: the three header bytes, then the rest of a longer length, then the payload.

What happens to the reader's state on each failure is part of the protocol. A compressed header
and an undecodable frame are left behind, and reading goes on after them. An announced length above
the cap leaves the reader where it is, so that every later read fails in the same way. The end of
the stream keeps what has arrived.
-/

namespace PeerNet

/-- How a stream ends. -/
inductive StreamEnd
  /-- No more bytes will come. -/
  | closed
  /-- Every read fails, whatever has not been read yet. -/
  | reset
  deriving DecidableEq, Repr

/-- The receiving side of a stream: bytes that have arrived, and how it ended, if it did. -/
structure Inlet where
  arrived : Bytes
  ending : Option StreamEnd
  deriving DecidableEq, Repr

/-- A stream on which nothing has happened yet. -/
def Inlet.empty : Inlet := ⟨[], none⟩

/-- Whether there is nothing to read, and no end to be noticed. -/
def Inlet.isSilent (i : Inlet) : Bool := i.arrived.isEmpty && i.ending.isNone

/-- The stream ends. One that was reset stays so, however it ends afterwards. -/
def Inlet.finish (i : Inlet) (ending : StreamEnd) : Inlet :=
  if i.ending = some .reset then i else { i with ending := some ending }

/-- The part of a frame that has arrived. -/
structure FrameReader where
  stage : FrameStage
  /-- All bytes of the frame so far, last first. -/
  received : Bytes
  /-- How many bytes the present stage lacks. -/
  missing : Nat
  deriving DecidableEq, Repr

namespace FrameReader

/-- Flags, command, and the first byte of the length. -/
def headerSize : Nat := 3

/-- A reader at the start of a frame. -/
def start : FrameReader := ⟨.header, [], headerSize⟩

/-- What a completed stage leads to. -/
inductive Completion
  /-- The frame goes on with another stage. -/
  | proceed (next : FrameReader)
  /-- The read is over. -/
  | done (next : FrameReader) (result : Except TransportError Message)

/-- Goes on to a payload of the given size, unless that is above the cap. -/
def toPayload (r : FrameReader) (size : Nat) : Completion :=
  if size > Message.maxPayloadSize then .done r (.error (.oversizedPayload size))
  else .proceed ⟨.payload, r.received, size⟩

/-- What follows once a stage lacks no byte. -/
def complete (r : FrameReader) : Completion :=
  match r.stage with
  | .header =>
    match r.received.reverse with
    | flags :: _ :: marker :: _ =>
      if Message.isCompressed flags then .done start (.error .compressed)
      else
        let width := CompactSize.extension marker
        if width = 0 then r.toPayload marker.toNat
        else .proceed ⟨.length, r.received, width⟩
    | _ => .proceed ⟨.payload, r.received, 0⟩
  | .length => r.toPayload (ofLE (r.received.reverse.drop headerSize))
  | .payload =>
    .done start ((Message.decode r.received.reverse).mapError TransportError.undecodable)

/-- How many stages may still follow before the read is over. -/
def stagesLeft : FrameStage → Nat
  | .header => 2
  | .length => 1
  | .payload => 0

/-- How a read ends for now. -/
inductive Outcome
  | finished (result : Except TransportError Message)
  /-- Everything that has arrived is used up, and more may come. -/
  | waiting

/-- A read that goes on with the next part of a frame has fewer parts ahead. -/
theorem stagesLeft_lt_of_complete {r next : FrameReader} (h : r.complete = .proceed next) :
    stagesLeft next.stage < stagesLeft r.stage := by
  unfold complete toPayload at h
  split at h
  · split at h
    · split at h
      · simp at h
      · dsimp only at h
        split at h
        · split at h <;> simp at h
          subst h; simp [stagesLeft, *]
        · simp at h; subst h; simp [stagesLeft, *]
    · simp at h; subst h; simp [stagesLeft, *]
  · split at h <;> simp at h
    subst h; simp [stagesLeft, *]
  · simp at h

/-- Whether the next step has to read from the stream. -/
def needsStream (r : FrameReader) : Bool := r.missing != 0

/-- One step: what follows a stage that lacks no byte, or one read of the stream, which brings at
most `limit + 1` bytes and never more than the stage lacks. It answers `none` if another step
follows. -/
def step (limit : Nat) (r : FrameReader) (inlet : Inlet) : FrameReader × Inlet × Option Outcome :=
  if r.missing = 0 then
    match r.complete with
    | .done next result => (next, inlet, some (.finished result))
    | .proceed next => (next, inlet, none)
  else if inlet.ending = some .reset then
    (r, inlet, some (.finished (.error (.stream .connectionReset))))
  else if inlet.arrived.isEmpty then
    match inlet.ending with
    | none => (r, inlet, some .waiting)
    | some _ => (r, inlet, some (.finished (.error (.stream (.closedWhileReading r.stage)))))
  else
    let piece := inlet.arrived.take (min r.missing (limit + 1))
    ({ r with received := piece.reverseAux r.received, missing := r.missing - piece.length },
      { inlet with arrived := inlet.arrived.drop piece.length }, none)

/-- A step that another one follows has used up bytes, or has led to a later stage. -/
theorem lt_of_step {limit : Nat} {r next : FrameReader} {inlet rest : Inlet}
    (h : r.step limit inlet = (next, rest, none)) :
    rest.arrived.length < inlet.arrived.length ∨
      rest.arrived.length = inlet.arrived.length ∧ stagesLeft next.stage < stagesLeft r.stage := by
  unfold step at h
  split at h
  · split at h
    · simp at h
    · next hc =>
      simp only [Prod.mk.injEq, and_true] at h
      obtain ⟨rfl, rfl⟩ := h
      exact .inr ⟨rfl, stagesLeft_lt_of_complete hc⟩
  · split at h
    · simp at h
    · split at h
      · split at h <;> simp at h
      · next hm _ ha =>
        simp only [Prod.mk.injEq, and_true] at h
        obtain ⟨-, rfl⟩ := h
        refine .inl ?_
        have : 0 < inlet.arrived.length := by
          cases hl : inlet.arrived <;> simp_all
        simp only [List.length_drop, List.length_take]
        omega

/-- Reads one message, step by step. -/
def read (limit : Nat) (r : FrameReader) (inlet : Inlet) : FrameReader × Inlet × Outcome :=
  match _stepped : r.step limit inlet with
  | (next, rest, some outcome) => (next, rest, outcome)
  | (next, rest, none) => read limit next rest
termination_by (inlet.arrived.length, stagesLeft r.stage)
decreasing_by
  rcases lt_of_step _stepped with h | ⟨h, h'⟩
  · exact Prod.Lex.left _ _ h
  · rw [h]; exact Prod.Lex.right _ h'

/-- Reads one message after the other, until the reader has to wait, a failure comes, or `budget`
results are there. -/
def collect (limit : Nat) :
    Nat → FrameReader → Inlet → FrameReader × Inlet × List (Except TransportError Message)
  | 0, r, inlet => (r, inlet, [])
  | budget + 1, r, inlet =>
    match r.read limit inlet with
    | (r, inlet, .waiting) => (r, inlet, [])
    | (r, inlet, .finished (.error e)) => (r, inlet, [.error e])
    | (r, inlet, .finished (.ok m)) =>
      let (r, inlet, later) := collect limit budget r inlet
      (r, inlet, .ok m :: later)

end FrameReader

end PeerNet
