import PeerNet.Wire.DecodeError

/-!
# Failures of a message stream

What can go wrong while messages are read from or written to a stream, from the stream itself up
to the node that owns the connection. Every error has a text, and may have an underlying error
with a text of its own; `chain` lists them from the outside in.
-/

namespace PeerNet

/-- The part of a frame that is being read. -/
inductive FrameStage
  /-- Flags, command and the first length byte. -/
  | header
  /-- The rest of a longer length. -/
  | length
  | payload
  deriving DecidableEq, Repr

/-- The word for each stage. -/
def FrameStage.text : FrameStage → String
  | header => "header"
  | length => "length"
  | payload => "payload"

/-- A failure of the stream itself. -/
inductive StreamError
  /-- The stream ended inside a frame, or before one. -/
  | closedWhileReading (stage : FrameStage)
  | connectionReset
  | brokenPipe
  /-- Any other failure, with its own words. -/
  | other (text : String)
  deriving DecidableEq, Repr

/-- The text shown for a failed stream. -/
def StreamError.message : StreamError → String
  | closedWhileReading stage => "connection closed while reading " ++ stage.text
  | connectionReset => "connection reset"
  | brokenPipe => "broken pipe"
  | other text => text

/-- Why a message cannot be read or written. -/
inductive TransportError
  | stream (e : StreamError)
  /-- A whole frame whose content is not a message. -/
  | undecodable (e : DecodeError)
  /-- An announced payload above the cap. -/
  | oversizedPayload (size : Nat)
  | compressed
  deriving DecidableEq, Repr

namespace TransportError

/-- The text shown for a failed read or write. -/
def message : TransportError → String
  | stream e => "IO error: " ++ e.message
  | undecodable e => "Message deserialization error: " ++ e.message
  | oversizedPayload size => s!"Message payload of {size} bytes exceeds maximum"
  | compressed => "Compressed messages are not supported"

/-- Whether the stream is at its end, rather than a frame unusable. -/
def isEnd : TransportError → Bool
  | stream _ => true
  | undecodable _ | oversizedPayload _ | compressed => false

/-- The texts of the error and of what lies under it. -/
def chain (e : TransportError) : List String :=
  e.message :: match e with
    | stream e => [e.message]
    | undecodable e => e.message :: e.sources
    | oversizedPayload _ | compressed => []

end TransportError

/-- Why a connection cannot be made or used. -/
inductive ConnectionError
  | stream (e : StreamError)
  | transport (e : TransportError)
  | timeout
  deriving DecidableEq, Repr

namespace ConnectionError

/-- The text shown for a failed connection. -/
def message : ConnectionError → String
  | stream e => "Connection error: " ++ e.message
  | transport e => "Transport layer failed in peer connection: " ++ e.message
  | timeout => "Connection attempt timed out"

/-- The texts of the error and of what lies under it. -/
def chain (e : ConnectionError) : List String :=
  e.message :: match e with
    | stream e => [e.message]
    | transport e => e.chain
    | timeout => []

end ConnectionError

/-- Why the node cannot do what it was asked to. -/
inductive NodeError
  | stream (e : StreamError)
  | connection (e : ConnectionError)
  | transport (e : TransportError)
  /-- The node has shut down. -/
  | stopped
  deriving DecidableEq, Repr

namespace NodeError

/-- The text shown to the node's user. -/
def message : NodeError → String
  | stream e => "IO error: " ++ e.message
  | connection e => "connection error: " ++ e.message
  | transport e => "transport error: " ++ e.message
  | stopped => "node stopped"

/-- The texts of the error and of what lies under it. -/
def chain (e : NodeError) : List String :=
  e.message :: match e with
    | stream e => [e.message]
    | connection e => e.chain
    | transport e => e.chain
    | stopped => []

end NodeError

end PeerNet
