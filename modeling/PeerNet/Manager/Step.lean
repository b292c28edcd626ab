import PeerNet.Manager.Basic

/-!
# The manager at work

`Manager.step` takes one command. A command about a peer changes nothing but what is kept of that
peer, and nothing at all once the peer is gone. A manager that is to stop accepts no connection,
starts no notice and no attempt, and stops for good when the last connection is gone.
-/

namespace PeerNet.Manager

/-- Turns a stream away. While too many notices are being written it is closed without one. -/
def reject (m : Manager) (choices : Choices) (reason : DisconnectReason) :
    Manager × List ManagerEffect :=
  if m.pendingRejections ≥ m.settings.maxPendingRejections then (m, [.rejected none])
  else
    match rejectionNotice reason (m.connectedPeers choices maxSuggestions) with
    | none => (m, [.rejected none])
    | some d => ({ m with pendingRejections := m.pendingRejections + 1 }, [.rejected (some d)])

/-- Makes a stream a connection, or turns it away. -/
def connect (m : Manager) (choices : Choices) (remote : Endpoint) (direction : Direction) :
    Manager × List ManagerEffect :=
  if !m.isRunning then (m, [.rejected none])
  else
    match m.registry.register remote direction m.settings.maxConnections
        m.settings.maxConnectionsPerAddress with
    | .ok (registry, peer) => ({ m with registry }, [.accepted peer])
    | .error reason => m.reject choices reason

/-- Decides whether a peer may stay. One that may is known by its version from now on, and if it
accepts connections it is filed in the address book. -/
def allow (m : Manager) (peer : PeerId) (version : Version) (now : Nat) :
    Manager × Except DisconnectReason Unit :=
  if version.magic ≠ m.settings.identity.magic then (m, .error .magicNumberIncompatible)
  else if version.nonce = m.settings.identity.nonce then (m, .error .duplicateConnection)
  else
    match m.registry.get? peer with
    | none => (m, .error .duplicateConnection)
    | some entry =>
      if m.registry.isDuplicate peer entry.remote.ip version.nonce then
        (m, .error .duplicateConnection)
      else
        let book :=
          if version.listenerPort.isSome then
            let record := .ofIp entry.remote.ip version.timestamp version.capabilities
            (m.book.add record now).1
          else m.book
        let registry := m.registry.modify peer fun e => { e with version := some version }
        ({ m with book, registry }, .ok ())

/-- Files records as seen now. -/
def addRecords (m : Manager) (records : List AddressRecord) (now : Nat) : Manager :=
  { m with book := records.foldl (fun b r => (b.add r now).1) m.book }

/-- Whether a peer wants to hear of an object: a filter holds back transactions only. -/
def wants (e : PeerEntry) (inventory : Inventory) : Bool :=
  match inventory, e.filter with
  | .transaction tx, some filter => filter.accepts tx
  | _, _ => true

/-- Has an object announced to every peer that is ready and wants it, except its source. -/
def announce (m : Manager) (inventory : Inventory) (source : Option PeerId) : List ManagerEffect :=
  let targets := m.registry.ready.filter fun (peer, e) => some peer != source && wants e inventory
  targets.map fun (peer, _) => .command peer (.relay inventory.kind inventory.hash)

/-- Takes note of a height that a peer reported, if it is greater than before. -/
def raiseHeight (m : Manager) (peer : PeerId) (height : UInt32) : Manager × List ManagerEffect :=
  match m.registry.get? peer with
  | none => (m, [])
  | some entry =>
    if height > entry.lastBlockIndex then
      let registry := m.registry.modify peer fun e => { e with lastBlockIndex := height }
      ({ m with registry }, [.report peer (.heightUpdated height)])
    else (m, [])

/-- Takes a notice of a session. -/
def onNotice (m : Manager) (choices : Choices) (moment : Moment) (peer : PeerId) :
    PeerNotice → Manager × List ManagerEffect
  | .introduced version =>
    let (m, verdict) := m.allow peer version moment.now
    (m, [.answer peer (.verdict verdict)])
  | .ready =>
    let greet (e : PeerEntry) : PeerEntry :=
      { e with
        ready := true
        lastBlockIndex := (e.version.map Version.startHeight).getD e.lastBlockIndex }
    ({ m with registry := m.registry.modify peer greet }, [])
  | .filterChanged filter =>
    ({ m with registry := m.registry.modify peer fun e => { e with filter } }, [])
  | .remoteHeight height => m.raiseHeight peer height
  | .suggested records => (m.addRecords records moment.now, [])
  | .delivered inventory =>
    (m, .report peer (.inventoryReceived inventory) :: m.announce inventory (some peer))
  | .addressRequest => (m, [.answer peer (.addresses (m.connectedPeers choices maxSuggestions))])
  | .disconnected => ({ m with registry := (m.registry.remove peer).1 }, [])

/-- Begins connection attempts to some of the candidates, as many as are wanted and as may be under
way at a time. -/
def dialSome (m : Manager) (choices : Choices) (wanted : Nat) (candidates : List Endpoint) :
    Manager × List ManagerEffect :=
  let slots := min wanted (m.settings.maxConcurrentDials - m.dialing.length)
  let chosen := choices.drawEndpoints slots candidates
  ({ m with dialing := chosen.foldl (fun dialing e => dialing.insert e) m.dialing },
    chosen.map .dial)

/-- Looks for more connections while there are fewer than desired. Known endpoints come first; when
none is left the peers are asked for more, and without peers the seeds are tried. -/
def discover (m : Manager) (choices : Choices) : Manager × List ManagerEffect :=
  let wanted := m.settings.minDesiredConnections - (m.registry.size + m.dialing.length)
  if wanted = 0 then (m, [])
  else
    let candidates := m.unconnectedPeers.filter (!m.dialing.contains ·)
    if !candidates.isEmpty then m.dialSome choices wanted candidates
    else if !m.registry.ready.isEmpty then
      (m, m.registry.ready.map fun (peer, _) => .command peer (.send .getAddr))
    else
      m.dialSome choices wanted
        (m.settings.seeds.filter fun e => !m.dialing.contains e && !m.registry.isConnectedTo e)

/-- Begins to stop. Only the first caller has the peers sent away. -/
def beginShutdown (m : Manager) (caller : Nat) : Manager × List ManagerEffect :=
  match m.phase with
  | .running =>
    ({ m with phase := .closing [caller] },
      m.registry.peers.map fun (peer, _) => .command peer (.disconnect .shutdown))
  | .closing callers => ({ m with phase := .closing (callers ++ [caller]) }, [])
  | .stopped => (m, [])

/-- What a command brings about, as long as the manager has not stopped. -/
def handle (m : Manager) (choices : Choices) (moment : Moment) :
    ManagerCommand → Manager × List ManagerEffect
  | .connect remote direction => m.connect choices remote direction
  | .notice peer n => m.onNotice choices moment peer n
  | .addPeers endpoints =>
    let record (e : Endpoint) : AddressRecord := .ofIp e.ip moment.unixTime [.tcpServer e.port]
    (m.addRecords (endpoints.map record) moment.now, [])
  | .relay inventory => (m, m.announce inventory none)
  | .broadcast message =>
    (m, m.registry.ready.map fun (peer, _) => .command peer (.send message))
  | .inspect => (m, [])
  | .tick => if m.isRunning then m.discover choices else (m, [])
  | .dialFinished endpoint => ({ m with dialing := m.dialing.erase endpoint }, [])
  | .rejectionFinished => ({ m with pendingRejections := m.pendingRejections - 1 }, [])
  | .shutdown caller => m.beginShutdown caller

/-- Stops, if that is due. -/
def stopIfDone (m : Manager) : Manager × List ManagerEffect :=
  match m.phase with
  | .closing callers =>
    if m.registry.size = 0 then ({ m with phase := .stopped }, [.stopped callers]) else (m, [])
  | .running | .stopped => (m, [])

/-- Takes one command. A manager that has stopped takes none. -/
def step (m : Manager) (choices : Choices) (moment : Moment) (command : ManagerCommand) :
    Manager × List ManagerEffect :=
  if m.isStopped then (m, [])
  else
    let (m, effects) := m.handle choices moment command
    let (m, last) := m.stopIfDone
    (m, effects ++ last)

end PeerNet.Manager
