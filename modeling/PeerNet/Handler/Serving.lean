import PeerNet.Handler.Basic

/-!
# Serving a peer's requests

Answers from the ledger: hashes, headers and blocks along the chain, and single objects by hash. A
walk along the chain stops at the first index for which the ledger has nothing, and answers nothing
if that is its first. An object asked for by hash is sent to a peer once.
-/

namespace PeerNet.Handler

/-- The most blocks sent for one request by index. -/
def maxBlockDataCount : Nat := 500

/-- How many items a walk may have: a negative count, or one above the cap, stands for the cap. -/
def clampCount (count : Int16) (cap : Nat) : Nat :=
  if count.toInt < 0 ∨ count.toInt > cap then cap else count.toInt.toNat

/-- The results for consecutive numbers from `start` on, at most `count`, up to the first
failure. -/
def collect {α : Type} (find : Nat → Option α) (start : Nat) : (count : Nat) → List α
  | 0 => []
  | count + 1 =>
    match find start with
    | some a => a :: collect find (start + 1) count
    | none => []

/-- A number as a block index; there are none from `2 ^ 32` on. -/
def index? (n : Nat) : Option UInt32 :=
  if n < 0x1_0000_0000 then some (UInt32.ofNat n) else none

/-- The hashes that follow a block, no further than the ledger's height. -/
def hashesAfter (ledger : Ledger) (start : UInt32) (count : Nat) : List Hash :=
  let find (n : Nat) : Option Hash := do
    let i ← index? n
    if i ≤ ledger.height then ledger.blockHash i else none
  collect find (start.toNat + 1) count

/-- The headers that follow a block, as far as the ledger has them. -/
def headersAfter (ledger : Ledger) (start : UInt32) (count : Nat) : List Header :=
  let find (n : Nat) : Option Header := do ledger.header (← ledger.blockHash (← index? n))
  collect find (start.toNat + 1) count

/-- The blocks from an index on, as far as the ledger has them. -/
def blocksFrom (ledger : Ledger) (start : UInt32) (count : Nat) : List Block :=
  collect (fun n => (index? n).bind ledger.blockAt) start.toNat count

/-- A block as the peer wants to see it: whole, or reduced by its filter. -/
def blockMessage (h : Handler) (b : Block) : Message :=
  match h.filter with
  | none => .block b
  | some f => .merkleBlock (f.reduce b)

/-- The answer to a request for the hashes after a block. -/
def onGetBlocks (ledger : Ledger) (walk : ChainWalk) : List HandlerEvent :=
  match ledger.blockIndex walk.start with
  | none => []
  | some start =>
    match hashesAfter ledger start (clampCount walk.count HashList.maxCount) with
    | [] => []
    | hashes => [.send (.inv ⟨.block, hashes⟩)]

/-- The answer to a request for the headers after a block. -/
def onGetHeaders (ledger : Ledger) (walk : ChainWalk) : List HandlerEvent :=
  match ledger.blockIndex walk.start with
  | none => []
  | some start =>
    match headersAfter ledger start (clampCount walk.count Header.maxCount) with
    | [] => []
    | headers => [.send (.headers headers)]

/-- The answer to a request for blocks by index. -/
def onGetBlockData (h : Handler) (ledger : Ledger) (range : BlockRange) : List HandlerEvent :=
  (blocksFrom ledger range.start (min range.count.toNat maxBlockDataCount)).map
    fun b => .send (h.blockMessage b)

/-- The announcements of everything in the pool. -/
def onMempool (ledger : Ledger) : List HandlerEvent :=
  (HashList.grouped .transaction ledger.mempool).map fun l => .send (.inv l)

/-- The object of a kind with a hash, as it is sent. -/
def objectMessage (h : Handler) (ledger : Ledger) (kind : InventoryKind) (hash : Hash) :
    Option Message :=
  match kind with
  | .transaction => (ledger.transaction hash).map .transaction
  | .block => (ledger.block hash).map h.blockMessage
  | .consensus => (ledger.consensus hash).map .consensus

/-- Serves one hash of a request, unless it was asked for before. -/
def serveHash (h : Handler) (ledger : Ledger) (kind : InventoryKind) (hash : Hash) :
    Handler × List HandlerEvent :=
  match h.sent.add hash with
  | (_, false) => (h, [])
  | (sent, true) =>
    let h := { h with sent }
    (h, ((h.objectMessage ledger kind hash).map HandlerEvent.send).toList)

/-- Serves hashes one after the other, behind the answers given already, which come last first. -/
def serveOnto (h : Handler) (ledger : Ledger) (kind : InventoryKind) :
    (hashes : List Hash) → (answers : List HandlerEvent) → Handler × List HandlerEvent
  | [], answers => (h, answers.reverse)
  | hash :: rest, answers =>
    let (h, events) := h.serveHash ledger kind hash
    h.serveOnto ledger kind rest (events.reverse ++ answers)

/-- The answer to a request for objects by hash. -/
def onGetData (h : Handler) (ledger : Ledger) (l : HashList) : Reaction :=
  let (h, events) := h.serveOnto ledger l.kind l.hashes []
  h.answering events

end PeerNet.Handler
