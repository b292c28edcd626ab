/-!
# Why bytes cannot be read

Every way in which a byte string can fail to be the wire form of a value. The causes are data;
their wording is in `Malformed.message` and `DecodeError.message`.
-/

namespace PeerNet

/-- A value on the wire that is complete but not allowed. -/
inductive Malformed
  | textNotUtf8
  | unknownCapability
  | emptyAddressList
  | bytesAfterAddressList
  | unknownInventoryType
  | bytesAfterRequest
  | unknownDisconnectReason
  | tooManyHashFunctions
  | tooManyMerkleTransactions
  | compressedPayload
  | unknownCommand
  | payloadNotEmpty
  | bytesLeftOver
  deriving DecidableEq, Repr

/-- The wording of each cause. -/
def Malformed.message : Malformed → String
  | textNotUtf8 => "string is not valid utf-8"
  | unknownCapability => "unknown node capability"
  | emptyAddressList => "empty address list"
  | bytesAfterAddressList => "trailing bytes after address list"
  | unknownInventoryType => "unknown inventory type"
  | bytesAfterRequest => "data not consumed entirely when deserializing"
  | unknownDisconnectReason => "unknown disconnect reason"
  | tooManyHashFunctions => "too many bloom filter hash functions"
  | tooManyMerkleTransactions => "merkle block tx count too large"
  | compressedPayload => "compressed payloads are not supported"
  | unknownCommand => "unknown message command"
  | payloadNotEmpty => "unexpected payload"
  | bytesLeftOver => "data not consumed entirely when explicitly deserializing"

/-- Why a byte string is refused. -/
inductive DecodeError
  /-- The input ends before the value does. -/
  | unexpectedEnd
  /-- A length or count above what its field allows. -/
  | oversized (requested maximum : Nat)
  /-- A length written in more bytes than it needs. -/
  | nonMinimalLength
  /-- A complete value that is not allowed. -/
  | malformed (cause : Malformed)
  deriving DecidableEq, Repr

namespace DecodeError

/-- The text shown for a refused byte string. -/
def message : DecodeError → String
  | unexpectedEnd => "IO error"
  | oversized requested maximum =>
    s!"allocation of oversized vector: requested {requested}, maximum {maximum}"
  | nonMinimalLength => "non-minimal varint"
  | malformed cause => "parse failed: " ++ cause.message

/-- The texts of the underlying errors: only a premature end has one. -/
def sources : DecodeError → List String
  | unexpectedEnd => ["I/O Error: UnexpectedEof"]
  | _ => []

end DecodeError

end PeerNet
