import PeerNet.Message.Basic

/-!
# Mailboxes

Messages wait for a connection's handler in two lanes: control traffic is delivered before bulk
traffic, and within a lane the order of arrival holds. A request that is already waiting makes
another of the same command redundant. Both lanes are bounded, and a push to a full lane waits;
only the timer finds room in any lane.

`Mailbox` is the mailbox itself, where a push to a full lane is refused. `Counter` adds the pushes
that wait at it: each delivery, and the closing of the mailbox, gives every one of them another
try, oldest first.
-/

namespace PeerNet

/-- What a handler is given to do. -/
inductive MailboxItem
  | message (m : Message)
  /-- It is time to look for items awaited too long. -/
  | timer
  deriving DecidableEq

namespace MailboxItem

/-- The command of a message; the timer has none. -/
def command? : MailboxItem → Option Command
  | message m => some m.command
  | timer => none

/-- The commands delivered before all others. -/
def highPriorityCommands : List Command :=
  [.consensus, .filterAdd, .filterClear, .filterLoad, .verack, .version, .alert]

/-- The commands of which one waiting request is enough. -/
def deduplicatedCommands : List Command := [.getAddr, .getBlocks, .getHeaders, .mempool]

/-- Whether an item goes into the lane that is emptied first. -/
def isHighPriority (item : MailboxItem) : Bool :=
  item.command?.any highPriorityCommands.contains

/-- Whether an item adds nothing to those that wait already. -/
def isRedundant (item : MailboxItem) (queued : List MailboxItem) : Bool :=
  item.command?.any fun c =>
    deduplicatedCommands.contains c && queued.any (·.command? == some c)

end MailboxItem

/-- Two bounded lanes of items. -/
structure Mailbox where
  /-- How many items a lane holds before a message has to wait. -/
  laneCapacity : Nat
  /-- Control traffic, oldest first. -/
  high : List MailboxItem
  /-- Everything else, oldest first. -/
  low : List MailboxItem
  /-- Whether the receiver is gone. -/
  closed : Bool
  deriving DecidableEq

/-- What becomes of a push. -/
inductive PushResult
  | queued
  | dropped
  | blocked
  | closed
  deriving DecidableEq, Repr

/-- The word for each answer. -/
def PushResult.text : PushResult → String
  | queued => "queued"
  | dropped => "dropped"
  | blocked => "blocked"
  | closed => "closed"

namespace Mailbox

/-- An empty mailbox whose lanes have room for at least one message. -/
def ofCapacity (laneCapacity : Nat) : Mailbox := ⟨max laneCapacity 1, [], [], false⟩

/-- All items, in the order of delivery. -/
def queued (b : Mailbox) : List MailboxItem := b.high ++ b.low

/-- The lane for an item. -/
def lane (b : Mailbox) (item : MailboxItem) : List MailboxItem :=
  if item.isHighPriority then b.high else b.low

/-- The mailbox with an item at the end of its lane. -/
def append (b : Mailbox) (item : MailboxItem) : Mailbox :=
  if item.isHighPriority then { b with high := b.high ++ [item] }
  else { b with low := b.low ++ [item] }

/-- Whether an item finds room; the timer always does. -/
def hasRoom (b : Mailbox) (item : MailboxItem) : Bool :=
  item == .timer || (b.lane item).length < b.laneCapacity

/-- One try to push an item. -/
def push (b : Mailbox) (item : MailboxItem) : Mailbox × PushResult :=
  if b.closed then (b, .closed)
  else if item.isRedundant b.queued then (b, .dropped)
  else if b.hasRoom item then (b.append item, .queued)
  else (b, .blocked)

/-- Takes the next item out, if there is one. -/
def receive (b : Mailbox) : Mailbox × Option MailboxItem :=
  match b.high, b.low with
  | item :: rest, _ => ({ b with high := rest }, some item)
  | [], item :: rest => ({ b with low := rest }, some item)
  | [], [] => (b, none)

/-- The mailbox without its receiver: every push is answered, and none is taken. -/
def close (b : Mailbox) : Mailbox := { b with closed := true }

/-- A mailbox with the pushes that wait at it. -/
structure Counter (σ : Type) where
  mailbox : Mailbox
  /-- Who waits with which item, longest first. -/
  waiting : List (σ × MailboxItem)

namespace Counter

variable {σ : Type}

/-- An empty mailbox at which nobody waits. -/
def ofCapacity (laneCapacity : Nat) : Counter σ := ⟨Mailbox.ofCapacity laneCapacity, []⟩

/-- Pushes an item; a push that finds no room waits. -/
def push (c : Counter σ) (who : σ) (item : MailboxItem) : Counter σ × PushResult :=
  let (mailbox, result) := c.mailbox.push item
  match result with
  | .blocked => (⟨mailbox, c.waiting ++ [(who, item)]⟩, .blocked)
  | result => ({ c with mailbox }, result)

/-- Gives each waiting push another try, in the order of the list, and answers those that are
over. -/
def retryEach (mailbox : Mailbox) :
    List (σ × MailboxItem) → Mailbox × List (σ × MailboxItem) × List (σ × PushResult)
  | [] => (mailbox, [], [])
  | (who, item) :: rest =>
    let (mailbox, result) := mailbox.push item
    let (mailbox, waiting, answers) := retryEach mailbox rest
    match result with
    | .blocked => (mailbox, (who, item) :: waiting, answers)
    | result => (mailbox, waiting, (who, result) :: answers)

/-- Another try for everyone who waits. -/
def retry (c : Counter σ) : Counter σ × List (σ × PushResult) :=
  let (mailbox, waiting, answers) := retryEach c.mailbox c.waiting
  (⟨mailbox, waiting⟩, answers)

/-- Takes the next item out; a delivery makes room, so everyone who waits tries again. -/
def receive (c : Counter σ) : Counter σ × Option MailboxItem × List (σ × PushResult) :=
  match c.mailbox.receive with
  | (mailbox, some item) =>
    let (c, answers) := ({ c with mailbox } : Counter σ).retry
    (c, some item, answers)
  | (_, none) => (c, none, [])

/-- Closes the mailbox, which turns everyone away. -/
def close (c : Counter σ) : Counter σ × List (σ × PushResult) :=
  ({ c with mailbox := c.mailbox.close } : Counter σ).retry

end Counter

end Mailbox

end PeerNet
