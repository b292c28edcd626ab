import PeerNet.Connection.Identity
import PeerNet.Net.Endpoint

/-!
# Node settings

The limits and periods under which a node runs. Some of them make no sense as zero, and a node does
not start with such a value; the first one in the order of `limits` and then of `periods` is named.
-/

namespace PeerNet

/-- A limit that has to be at least one. -/
inductive Limit
  | connections
  | connectionsPerAddress
  | mailbox
  deriving DecidableEq, Repr

/-- How each limit is named. -/
def Limit.text : Limit → String
  | connections => "max connections"
  | connectionsPerAddress => "max connections per address"
  | mailbox => "mailbox capacity"

/-- A duration that must not be zero. -/
inductive Period
  | handshake
  | timer
  | peerTimer
  | connection
  deriving DecidableEq, Repr

/-- How each duration is named. -/
def Period.text : Period → String
  | handshake => "handshake timeout"
  | timer => "timer interval"
  | peerTimer => "peer timer interval"
  | connection => "connection timeout"

/-- Why a node does not start. -/
inductive SettingsError
  | invalidUserAgent (e : UserAgentError)
  | zeroLimit (limit : Limit)
  | zeroPeriod (period : Period)
  deriving DecidableEq, Repr

namespace SettingsError

/-- The text shown for settings that are refused. -/
def message : SettingsError → String
  | invalidUserAgent e => "Invalid user agent: " ++ e.message
  | zeroLimit limit => limit.text ++ " must be at least one"
  | zeroPeriod period => period.text ++ " must not be zero"

/-- The texts of the error and of what lies under it. -/
def chain (e : SettingsError) : List String :=
  e.message :: match e with
    | invalidUserAgent e => [e.message]
    | zeroLimit _ | zeroPeriod _ => []

end SettingsError

/-- How a node is set up. Durations are in milliseconds. -/
structure Settings where
  identity : Identity
  /-- The most connections at a time. -/
  maxConnections : Nat
  /-- The most connections at a time from one address. -/
  maxConnectionsPerAddress : Nat
  /-- With fewer connections than this the node looks for more. -/
  minDesiredConnections : Nat
  /-- The most connection attempts at a time. -/
  maxConcurrentDials : Nat
  maxAddressBookSize : Nat
  /-- The most rejection notices being written at a time. -/
  maxPendingRejections : Nat
  /-- How long a handshake may take. -/
  handshakeTimeout : Nat
  /-- How long an announced hash is awaited. -/
  pendingTimeout : Nat
  /-- How often each connection looks for hashes awaited too long. -/
  timerInterval : Nat
  /-- How often the node looks for more connections. -/
  peerTimerInterval : Nat
  /-- How many messages each lane of a mailbox holds. -/
  mailboxCapacity : Nat
  /-- Where to connect when no other address is known. -/
  seeds : List Endpoint

namespace Settings

/-- The standard settings for an identity. -/
def standard (identity : Identity) : Settings where
  identity
  maxConnections := 40
  maxConnectionsPerAddress := 3
  minDesiredConnections := 10
  maxConcurrentDials := 4
  maxAddressBookSize := 1000
  maxPendingRejections := 16
  handshakeTimeout := 15000
  pendingTimeout := 60000
  timerInterval := 30000
  peerTimerInterval := 5000
  mailboxCapacity := 1024
  seeds := []

/-- The settings with a user agent given as text. -/
def withUserAgent (s : Settings) (text : String) : Except SettingsError Settings :=
  match UserAgent.ofText text with
  | .ok userAgent => .ok { s with identity := { s.identity with userAgent } }
  | .error e => .error (.invalidUserAgent e)

/-- The limits that are checked, in the order in which they are. -/
def limits (s : Settings) : List (Limit × Nat) :=
  [(.connections, s.maxConnections), (.connectionsPerAddress, s.maxConnectionsPerAddress),
    (.mailbox, s.mailboxCapacity)]

/-- The durations that are checked, in the order in which they are. -/
def periods (s : Settings) : List (Period × Nat) :=
  [(.handshake, s.handshakeTimeout), (.timer, s.timerInterval), (.peerTimer, s.peerTimerInterval),
    (.connection, s.identity.connectionTimeout)]

/-- Whether a node can run under the settings. -/
def validate (s : Settings) : Except SettingsError Unit :=
  match s.limits.find? (·.2 == 0) with
  | some (limit, _) => .error (.zeroLimit limit)
  | none =>
    match s.periods.find? (·.2 == 0) with
    | some (period, _) => .error (.zeroPeriod period)
    | none => .ok ()

end Settings

end PeerNet
