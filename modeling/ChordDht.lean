import ChordDht.Lib.Arc
import ChordDht.Lib.Trace
import ChordDht.Lib.CString
import ChordDht.Lib.Decimal
import ChordDht.Lib.Dotted
import ChordDht.Lib.Outcome
import ChordDht.Chord.Util
import ChordDht.Chord.Data
import ChordDht.Chord.Http
import ChordDht.Chord.Webserver
import ChordDht.Chord.Ring
import ChordDht.Chord.Network
import ChordDht.Chord.Redirects
import ChordDht.Chord.Lookup
import ChordDht.Chord.Serving
import ChordDht.Lib.Slots
import ChordDht.Lib.Lines
import ChordDht.Chord.Store
import ChordDht.Chord.Replies
import ChordDht.Chord.Durable
import ChordDht.Chord.Wire
import ChordDht.Chord.Partial
import ChordDht.Chord.Window
import ChordDht.Chord.Pipeline
import ChordDht.Chord.Segments
import ChordDht.Lib.Search
import ChordDht.Lib.Framing
import ChordDht.Tcp.MessageHandler
import ChordDht.Tcp.Segments
import ChordDht.Tcp.Requests
import ChordDht.Tcp.Resources
import ChordDht.Tcp.ReadBack
import ChordDht.Lib.Runs
import ChordDht.Lib.Tally
import ChordDht.WordCount.HashMap
import ChordDht.WordCount.Formats
import ChordDht.WordCount.Tokens
import ChordDht.WordCount.Chunker
import ChordDht.WordCount.Combine
import ChordDht.WordCount.Distributor
import ChordDht.WordCount.MapReply
import ChordDht.WordCount.Understood
import ChordDht.WordCount.Cuts
import ChordDht.WordCount.Phases
import ChordDht.WordCount.Table
import ChordDht.WordCount.EndToEnd
import ChordDht.WordCount.Maps
import ChordDht.Chord.Overwrite
import ChordDht.WordCount.Calls
import ChordDht.Chord.HeaderTable
import ChordDht.Chord.MoreInput
import ChordDht.Chord.LengthHeader
import ChordDht.Chord.WholeReplies
import ChordDht.Tcp.BufferArithmetic
import ChordDht.Tcp.LengthScan
import ChordDht.Chord.Tuples
import ChordDht.Chord.Ownership
import ChordDht.Lib.Chain
import ChordDht.Tcp.LinkedList
import ChordDht.Tcp.ResourceMap
import ChordDht.WordCount.FileChunks
import ChordDht.Lib.Places
import ChordDht.WordCount.Shortage
import ChordDht.WordCount.Grammar
import ChordDht.WordCount.Limits
import ChordDht.WordCount.Payloads
import ChordDht.WordCount.RoundTrip
import ChordDht.WordCount.Aggregate
import ChordDht.WordCount.Poll
import ChordDht.Chord.Hash
import ChordDht.Chord.Damage
import ChordDht.Chord.Unconsumed
import ChordDht.Tcp.HeadScan
import ChordDht.WordCount.BuildMsg
import ChordDht.Chord.Fetch
import ChordDht.Chord.OneStore
import ChordDht.Chord.EventLoop
import ChordDht.Chord.Launch
import ChordDht.Chord.Turns
import ChordDht.Chord.Processes
import ChordDht.Chord.InOrder
import ChordDht.Tcp.FileServer
import ChordDht.WordCount.Cluster
import ChordDht.WordCount.Lifetime
