import PeerNet.Bloom.Filter
import PeerNet.Bloom.Murmur
import PeerNet.Bytes
import PeerNet.Connection.Identity
import PeerNet.Frame.Error
import PeerNet.Frame.Reader
import PeerNet.Frame.Writer
import PeerNet.Handler.Basic
import PeerNet.Handler.Run
import PeerNet.Handler.Serving
import PeerNet.Handshake
import PeerNet.Hash.Sha256
import PeerNet.Ledger.Basic
import PeerNet.Ledger.Memory
import PeerNet.Mailbox
import PeerNet.Manager.Basic
import PeerNet.Manager.Step
import PeerNet.Message.AddressRecord
import PeerNet.Message.Basic
import PeerNet.Message.Block
import PeerNet.Message.Capability
import PeerNet.Message.Command
import PeerNet.Message.Disconnect
import PeerNet.Message.Filter
import PeerNet.Message.Inventory
import PeerNet.Message.Ping
import PeerNet.Message.Size
import PeerNet.Message.Version
import PeerNet.Net.Endpoint
import PeerNet.Net.Ip
import PeerNet.Node.Settings
import PeerNet.Peer.AddressBook
import PeerNet.Peer.Id
import PeerNet.Peer.Registry
import PeerNet.Proofs.Codec.Basic
import PeerNet.Proofs.Codec.Sized
import PeerNet.Session.Basic
import PeerNet.Session.Connection
import PeerNet.Session.Intake
import PeerNet.Session.Step
import PeerNet.Simulation.Basic
import PeerNet.Simulation.Line
import PeerNet.Simulation.Pipe
import PeerNet.Simulation.Run
import PeerNet.Tracking.FifoSet
import PeerNet.Tracking.PendingHashes
import PeerNet.Tracking.Queue
import PeerNet.UserAgent
import PeerNet.Wire.CompactSize
import PeerNet.Wire.DecodeError
import PeerNet.Wire.Decoder
import PeerNet.Proofs.Codec.Payload
import PeerNet.Proofs.Message.Limits
import PeerNet.Proofs.Message.Size
import PeerNet.Proofs.Message.Frame
import PeerNet.Proofs.Message.RoundTrip
import PeerNet.Proofs.Frame.Front
import PeerNet.Proofs.Frame.Reader
import PeerNet.Proofs.Frame.Schedule
import PeerNet.Proofs.Frame.Agreement
import PeerNet.Proofs.Handler.Announcement
import PeerNet.Proofs.Handler.Grammar
import PeerNet.Proofs.Handler.Reordering
import PeerNet.Proofs.Handler.Work
import PeerNet.Proofs.Mailbox.Lane
import PeerNet.Proofs.Mailbox.Order
import PeerNet.Proofs.Manager.Admission
import PeerNet.Proofs.Session.History
import PeerNet.Proofs.Simulation.Stream
import PeerNet.Proofs.Simulation.Pair
import PeerNet.Proofs.Handler.Serving
import PeerNet.Proofs.Manager.Identity
import PeerNet.Proofs.Session.Passage
import PeerNet.Proofs.Manager.Targets
import PeerNet.Proofs.Node.Assembly
import PeerNet.Proofs.Node.Established
import PeerNet.Proofs.Bloom.Filter
import PeerNet.Proofs.Handler.Produces
import PeerNet.Proofs.Handler.Filter
import PeerNet.Proofs.Handler.ReducedBlocks
import PeerNet.Proofs.Message.Bounds
import PeerNet.Proofs.Manager.Notice
import PeerNet.Proofs.Manager.Filters
import PeerNet.Proofs.Session.Course
import PeerNet.Proofs.Node.Course
import PeerNet.Proofs.Node.Filters
import PeerNet.Proofs.Handler.Sends
import PeerNet.Proofs.Session.Sends
import PeerNet.Proofs.Manager.Sends
import PeerNet.Proofs.Node.Sends
import PeerNet.Proofs.Node.Listener
import PeerNet.Proofs.Session.Lifecycle
import PeerNet.Proofs.Manager.Presence
import PeerNet.Proofs.Node.Lifecycle
import PeerNet.Proofs.Simulation.Reception
import PeerNet.Proofs.Session.Reading
import PeerNet.Proofs.Frame.Delivery
import PeerNet.Proofs.Tracking.Arrivals
import PeerNet.Proofs.Manager.Shutdown
import PeerNet.Proofs.Handler.Opening
import PeerNet.Proofs.Bloom.Bits
import PeerNet.Proofs.Handler.Walks
import PeerNet.Proofs.Handler.News
import PeerNet.Proofs.Codec.Requests
import PeerNet.Proofs.Message.Addresses
import PeerNet.Proofs.Message.UserAgent
import PeerNet.Proofs.Peer.Sightings
import PeerNet.Proofs.Manager.Locality
import PeerNet.Proofs.Manager.Heights
import PeerNet.Proofs.Manager.Suggestions
import PeerNet.Proofs.Manager.Discovery
import PeerNet.Proofs.Manager.Dials
import PeerNet.Proofs.Mailbox.Answers
import PeerNet.Proofs.Tracking.Leftovers
import PeerNet.Proofs.Bloom.Murmur
