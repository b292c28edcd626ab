import PeerNet.Handler.Serving

/-!
# The protocol handler at work

What a handler makes of each item of its mailbox, and of an object that the node wants announced.
The gate decides first; a command that it does not allow stops the handler without an answer.
-/

namespace PeerNet.Handler

/-- Suggested nodes, as far as they can be reached at all. -/
def suggestPeers (records : List AddressRecord) : List HandlerEvent :=
  match records.filter (0 < ·.endpoint.port) with
  | [] => []
  | reachable => [.peers reachable]

/-- Awaits hashes from `now` on; the result has only those that were not awaited yet. -/
def awaitEach (now : Nat) (pending : PendingHashes Hash) :
    List Hash → PendingHashes Hash × List Hash
  | [] => (pending, [])
  | h :: rest =>
    match pending.add h now with
    | (pending, true) =>
      let (pending, fresh) := awaitEach now pending rest
      (pending, h :: fresh)
    | (pending, false) => awaitEach now pending rest

/-- Whether an announced hash is news: the node neither awaits it from this peer, nor exchanged it
with this peer, nor holds it. -/
def isNews (h : Handler) (ledger : Ledger) (kind : InventoryKind) (hash : Hash) : Bool :=
  !h.pending.contains hash && !h.known.contains hash && !h.sent.contains hash
    && !ledger.holds kind hash

/-- Takes up an announcement: what is news becomes work for this peer. -/
def onInv (h : Handler) (ledger : Ledger) (now : Nat) (l : HashList) : Reaction :=
  let (pending, fresh) := awaitEach now h.pending (l.hashes.filter (h.isNews ledger l.kind))
  let h := { h with pending }
  match fresh with
  | [] => ⟨h, [], []⟩
  | fresh => ⟨h, [], [.newTasks ⟨l.kind, fresh⟩]⟩

/-- Takes a delivery: it is awaited no more, the peer has it, and others may want it. -/
def onInventory (h : Handler) (inventory : Inventory) : Reaction :=
  let hash := inventory.hash
  let h := { h with pending := (h.pending.remove hash).1, known := (h.known.add hash).1 }
  ⟨h, [.relay inventory], [.taskCompleted hash]⟩

/-- Replaces the peer's filter. -/
def setFilter (h : Handler) (filter : Option BloomFilter) : Reaction :=
  { h with filter }.answering [.filterChanged filter]

/-- Adds an element to the peer's filter, if one is loaded. -/
def onFilterAdd (h : Handler) (f : FilterAdd) : Reaction :=
  match h.filter with
  | none => h.answering []
  | some filter => h.setFilter (some (filter.add f.data))

/-- Does what a message asks, once the handshake is complete. -/
def dispatch (h : Handler) (ledger : Ledger) (moment : Moment) : Message → Reaction
  | .addr records => h.answering (suggestPeers records)
  | .getAddr => h.answering [.addressRequest]
  | .ping p =>
    h.answering [.remoteHeight p.lastBlockIndex,
      .send (.pong ⟨ledger.height, moment.unixTime, p.nonce⟩)]
  | .pong p => h.answering [.remoteHeight p.lastBlockIndex]
  | .getBlocks walk => h.answering (onGetBlocks ledger walk)
  | .getHeaders walk => h.answering (onGetHeaders ledger walk)
  | .getBlockData range => h.answering (h.onGetBlockData ledger range)
  | .getData l => h.onGetData ledger l
  | .mempool => h.answering (onMempool ledger)
  | .inv l => h.onInv ledger moment.now l
  | .headers hs => ⟨h, [], if hs.isEmpty then [] else [.headersReceived hs]⟩
  | .transaction tx =>
    if tx.size > Transaction.maxRelayedSize then h.answering []
    else h.onInventory (.transaction tx)
  | .block b => h.onInventory (.block b)
  | .consensus c => h.onInventory (.consensus c)
  | .filterLoad f => h.setFilter (some (BloomFilter.ofLoad f))
  | .filterAdd f => h.onFilterAdd f
  | .filterClear => h.setFilter none
  | .version _ | .verack | .disconnect _ | .notFound _ | .reject _ | .merkleBlock _ | .alert _ =>
    h.answering []

/-- Takes note of a farewell, and of the nodes that it suggests. -/
def onDisconnect (h : Handler) (d : Disconnect) : Reaction :=
  let suggestions :=
    if d.reason.carriesAddresses then
      match AddressRecord.decodeList d.data with
      | .ok records => suggestPeers records
      | .error _ => []
    else []
  h.stop.answering (suggestions ++ [.stop])

/-- Gives up on hashes awaited too long. -/
def onTimer (h : Handler) (now : Nat) : Handler :=
  { h with pending := (h.pending.sweep now h.pendingTimeout).1 }

/-- What became of an item: a reaction, or a violation with the handler it stopped. -/
inductive Handled
  | done (reaction : Reaction)
  | violation (handler : Handler) (v : ProtocolViolation)

/-- The handler after an item. -/
def Handled.handler : Handled → Handler
  | done reaction => reaction.handler
  | violation h _ => h

/-- The events of an item; a violation has none. -/
def Handled.events : Handled → List HandlerEvent
  | done reaction => reaction.events
  | violation _ _ => []

/-- The reports of an item; a violation has none. -/
def Handled.reports : Handled → List TaskReport
  | done reaction => reaction.reports
  | violation _ _ => []

/-- Handles a message as the gate decides. -/
def handleMessage (h : Handler) (ledger : Ledger) (moment : Moment) (m : Message) : Handled :=
  match gate h.state m.command, m with
  | .ignore, _ => .done (h.answering [])
  | .disconnect, .disconnect d => .done (h.onDisconnect d)
  | .acceptVersion, .version v =>
    .done ({ h with version := some v, state := .awaitingVerack }.answering [.versionReceived v])
  | .acceptVerack, .verack =>
    .done ({ h with state := .ready }.answering (h.version.map HandlerEvent.ready).toList)
  | .dispatch, m => .done (h.dispatch ledger moment m)
  | _, m => .violation h.stop ⟨h.state, m.command⟩

/-- Handles one item of the mailbox. -/
def handle (h : Handler) (ledger : Ledger) (moment : Moment) : MailboxItem → Handled
  | .timer => .done ((h.onTimer moment.now).answering [])
  | .message m => h.handleMessage ledger moment m

/-- The announcement of an object, unless the peer has it or takes no announcements. -/
def relay (h : Handler) (kind : InventoryKind) (hash : Hash) : Handler × Option Message :=
  if h.state = .ready ∧ h.version.any Version.isFullNode ∧ !h.sent.contains hash then
    match h.known.add hash with
    | (known, true) => ({ h with known }, some (.inv ⟨kind, [hash]⟩))
    | (_, false) => (h, none)
  else (h, none)

end PeerNet.Handler
