import PeerNet.Message.Version

/-!
# User agents

The name by which a node's software presents itself, `/name:version/`. A `UserAgent` is a text
that passed `UserAgent.check`; the check measures the text in bytes first, then its outer slashes
and its single colon, then the two parts.
-/

namespace PeerNet

/-- Why a text is not a user agent. -/
inductive UserAgentError
  | invalidFormat
  | missingName
  | missingVersion
  | tooLong (size : Nat)
  deriving DecidableEq, Repr

/-- The text shown for a refused user agent. -/
def UserAgentError.message : UserAgentError → String
  | invalidFormat => "User agent must follow format '/name:version/'"
  | missingName => "User agent name component cannot be empty"
  | missingVersion => "User agent version component cannot be empty"
  | tooLong size => s!"User agent of {size} bytes exceeds maximum of {Version.maxUserAgentSize}"

namespace UserAgent

/-- The characters between a leading and a trailing slash. The two slashes are distinct, so a
single one does not count twice. -/
def inner? : List Char → Option (List Char)
  | '/' :: rest => if rest.getLast? = some '/' then some rest.dropLast else none
  | _ => none

/-- Checks the form of a text that is short enough. -/
def checkForm (cs : List Char) : Except UserAgentError Unit :=
  match (inner? cs).map (List.splitOn ':') with
  | some [name, version] =>
    if name.isEmpty then .error .missingName
    else if version.isEmpty then .error .missingVersion
    else .ok ()
  | _ => .error .invalidFormat

/-- Decides whether a text is a user agent. -/
def check (text : String) : Except UserAgentError Unit :=
  if text.utf8ByteSize > Version.maxUserAgentSize then .error (.tooLong text.utf8ByteSize)
  else checkForm text.toList

end UserAgent

/-- A text of the form `/name:version/` that fits a version. -/
structure UserAgent where
  text : String
  valid : UserAgent.check text = .ok ()
  deriving DecidableEq

namespace UserAgent

/-- A text as a user agent, if it passes the check. -/
def ofText (text : String) : Except UserAgentError UserAgent :=
  match h : check text with
  | .ok () => .ok ⟨text, h⟩
  | .error e => .error e

/-- The user agent of a name and a version. -/
def ofParts (name version : String) : Except UserAgentError UserAgent :=
  ofText ("/" ++ name ++ ":" ++ version ++ "/")

/-- The user agent of this node, unless it is configured otherwise. -/
def standard : UserAgent := ⟨"/neo-peers:0.1.0/", by rfl⟩

end UserAgent

end PeerNet
