import SolBroker.Lib.Run
import SolBroker.Lib.Along
import SolBroker.Lib.Refinement
import SolBroker.Lib.Simulation
import SolBroker.Lib.Reader
import SolBroker.Lib.Keyed
import SolBroker.Lib.Probe
import SolBroker.Lib.Seating
import SolBroker.Lib.Rebuild
import SolBroker.Lib.Words
import SolBroker.Lib.Path
import SolBroker.Lib.Rounding
import SolBroker.Memory
import SolBroker.Decimal
import SolBroker.Wire.Packet
import SolBroker.Wire.Pack
import SolBroker.Wire.Length
import SolBroker.Wire.Unpack
import SolBroker.Wire.Subscribe
import SolBroker.Wire.Encode
import SolBroker.Wire.Publish
import SolBroker.Wire.Connect
import SolBroker.Wire.Payload
import SolBroker.Wire.Unsubscribe
import SolBroker.Net.Socket
import SolBroker.Net.Receive
import SolBroker.Net.LengthField
import SolBroker.Net.Packet
import SolBroker.Net.Dispatch
import SolBroker.Net.Bounds
import SolBroker.Net.Whole
import SolBroker.Net.Limits
import SolBroker.Net.EventLoop
import SolBroker.Trie.List
import SolBroker.Trie.Node
import SolBroker.Trie.Map
import SolBroker.Trie.Prefix
import SolBroker.Trie.PrefixDelete
import SolBroker.Trie.Canonical
import SolBroker.Trie.Visits
import SolBroker.Lib.PubSub
import SolBroker.Trie.Walks
import SolBroker.Hash.Key
import SolBroker.Hash.Table
import SolBroker.Hash.Entry
import SolBroker.Hash.Exact
import SolBroker.Hash.Duplicates
import SolBroker.Hash.Contents
import SolBroker.Hash.Growth
import SolBroker.Hash.Seating
import SolBroker.Hash.Interference
import SolBroker.Hash.Room
import SolBroker.Hash.Failure
import SolBroker.Hash.Release
import SolBroker.Lib.Heap
import SolBroker.Lib.Index
import SolBroker.Broker.Table
import SolBroker.Broker.State
import SolBroker.Broker.Handlers
import SolBroker.Broker.Effect
import SolBroker.Broker.Topics
import SolBroker.Broker.Subscribers
import SolBroker.Broker.Attachment
import SolBroker.Broker.Closures
import SolBroker.Broker.Rearm
import SolBroker.Broker.Objects
import SolBroker.Broker.Publish
import SolBroker.Broker.Rounds
import SolBroker.Broker.Duplicates
import SolBroker.Broker.Unsubscribe
import SolBroker.Broker.Names
import SolBroker.Broker.Delivery
import SolBroker.Broker.Filters
import SolBroker.Broker.Tuples
import SolBroker.Broker.Ending
import SolBroker.Broker.Stats
import SolBroker.Broker.Buffers
import SolBroker.Broker.Counters
import SolBroker.Broker.Accounting
import SolBroker.Broker.Replies
import SolBroker.Net.Send
import SolBroker.Net.SendLoop
import SolBroker.Broker.Writing
import SolBroker.Broker.Server
import SolBroker.Broker.Qos
import SolBroker.Broker.Fanout
import SolBroker.Broker.Suback
import SolBroker.Broker.Wildcard
import SolBroker.Config.Amounts
import SolBroker.Config.Settings
import SolBroker.Config.Load
import SolBroker.Config.Startup
import SolBroker.Linked.List
import SolBroker.Linked.Tail
import SolBroker.Linked.RemoveNode
import SolBroker.Linked.Contents
import SolBroker.Linked.MergeSort
import SolBroker.Linked.Release
import SolBroker.Broker.Maps
import SolBroker.Broker.Shutdown
import SolBroker.Broker.Progress
import SolBroker.Broker.Board
import SolBroker.Broker.Dialogue
import SolBroker.Lib.Framing
import SolBroker.Wire.Frames
import SolBroker.Broker.Frames
import SolBroker.Broker.Received
import SolBroker.Broker.Descriptors
import SolBroker.Broker.Messages
import SolBroker.Broker.Isolation
import SolBroker.Broker.Conversation
import SolBroker.Lib.Crc
import SolBroker.Hash.Crc
