import PeerNet.Frame.Reader
import PeerNet.Mailbox

/-!
# The intake of a connection

Messages are read from the stream one after the other and pushed into the mailbox. A message that
finds no room there is held back, and nothing more is read until it has been taken. The first
failure of the stream ends the intake for good, also one after which a reader could go on.
-/

namespace PeerNet

/-- The part of a connection that reads. -/
inductive Intake
  | reading (reader : FrameReader)
  /-- Waits until there is room for a message. -/
  | holding (reader : FrameReader) (m : Message)
  | finished
  deriving DecidableEq

namespace Intake

/-- The intake of a new connection. -/
def start : Intake := .reading .start

/-- Offers a message to the mailbox. -/
def offer (reader : FrameReader) (m : Message) (mailbox : Mailbox) : Intake × Mailbox :=
  match mailbox.push (.message m) with
  | (mailbox, .queued) | (mailbox, .dropped) => (.reading reader, mailbox)
  | (mailbox, .blocked) => (.holding reader m, mailbox)
  | (mailbox, .closed) => (.finished, mailbox)

/-- Whether the next step has to read from the stream. -/
def needsStream : Intake → Bool
  | .reading reader => reader.needsStream
  | .holding _ _ | .finished => false

/-- Makes one step of reading, which brings all that has arrived of the present stage, or offers the
message held back once more. -/
def step (intake : Intake) (inlet : Inlet) (mailbox : Mailbox) : Intake × Inlet × Mailbox :=
  match intake with
  | .reading reader =>
    match reader.step reader.missing inlet with
    | (reader, inlet, none) | (reader, inlet, some .waiting) => (.reading reader, inlet, mailbox)
    | (_, inlet, some (.finished (.error _))) => (.finished, inlet, mailbox)
    | (reader, inlet, some (.finished (.ok m))) =>
      let (intake, mailbox) := offer reader m mailbox
      (intake, inlet, mailbox)
  | .holding reader m =>
    let (intake, mailbox) := offer reader m mailbox
    (intake, inlet, mailbox)
  | .finished => (.finished, inlet, mailbox)

/-- Whether a step would change nothing: nothing has arrived, there is still no room for the message
held back, or the intake is finished. -/
def mustWait (intake : Intake) (inlet : Inlet) (mailbox : Mailbox) : Bool :=
  match intake with
  | .reading reader => reader.needsStream && inlet.isSilent
  | .holding _ m => (mailbox.push (.message m)).2 = .blocked
  | .finished => true

end Intake

end PeerNet
