import PeerNet.Bytes

/-!
# Commands

The 24 kinds of message, each with the byte that announces it on the wire.
-/

namespace PeerNet

/-- What a message is for. -/
inductive Command
  | version
  | verack
  | disconnect
  | getAddr
  | addr
  | ping
  | pong
  | getHeaders
  | headers
  | getBlocks
  | mempool
  | inv
  | getData
  | getBlockData
  | notFound
  | transaction
  | block
  | consensus
  | reject
  | filterLoad
  | filterAdd
  | filterClear
  | merkleBlock
  | alert
  deriving DecidableEq, Repr

namespace Command

/-- All commands, in the order of their bytes. -/
def all : List Command :=
  [version, verack, disconnect, getAddr, addr, ping, pong, getHeaders, headers, getBlocks, mempool,
    inv, getData, getBlockData, notFound, transaction, block, consensus, reject, filterLoad,
    filterAdd, filterClear, merkleBlock, alert]

/-- The byte of each command. -/
def code : Command → UInt8
  | version => 0x00
  | verack => 0x01
  | disconnect => 0x02
  | getAddr => 0x10
  | addr => 0x11
  | ping => 0x18
  | pong => 0x19
  | getHeaders => 0x20
  | headers => 0x21
  | getBlocks => 0x24
  | mempool => 0x25
  | inv => 0x27
  | getData => 0x28
  | getBlockData => 0x29
  | notFound => 0x2a
  | transaction => 0x2b
  | block => 0x2c
  | consensus => 0x2d
  | reject => 0x2f
  | filterLoad => 0x30
  | filterAdd => 0x31
  | filterClear => 0x32
  | merkleBlock => 0x38
  | alert => 0x40

/-- The command that a byte stands for. -/
def ofCode? (b : UInt8) : Option Command := all.find? (·.code == b)

/-- The name of each command. -/
def name : Command → String
  | version => "Version"
  | verack => "Verack"
  | disconnect => "Disconnect"
  | getAddr => "GetAddr"
  | addr => "Addr"
  | ping => "Ping"
  | pong => "Pong"
  | getHeaders => "GetHeaders"
  | headers => "Headers"
  | getBlocks => "GetBlocks"
  | mempool => "Mempool"
  | inv => "Inv"
  | getData => "GetData"
  | getBlockData => "GetBlockData"
  | notFound => "NotFound"
  | transaction => "Transaction"
  | block => "Block"
  | consensus => "Consensus"
  | reject => "Reject"
  | filterLoad => "FilterLoad"
  | filterAdd => "FilterAdd"
  | filterClear => "FilterClear"
  | merkleBlock => "MerkleBlock"
  | alert => "Alert"

/-- The command with a given name. -/
def ofName? (text : String) : Option Command := all.find? (·.name == text)

end Command

end PeerNet
