import Libtarp.Event.OsEvents
import Libtarp.Event.Timespec
import Libtarp.Event.Pump
import Libtarp.Event.PumpRuns
import Libtarp.Event.TimerRuns
import Libtarp.Event.UserEvents
import Libtarp.Event.Watches
import Libtarp.Event.WaitTimer
import Libtarp.Event.Activation
import Libtarp.Event.Lifetime
import Libtarp.Lib.StableSort
import Libtarp.Sched.Deadline
import Libtarp.Sched.PeriodicTask
import Libtarp.Guard.TimeGuard
import Libtarp.Guard.TimeGuardRuns
import Libtarp.Guard.ExpTimeGuard
import Libtarp.Guard.ExpTimeGuardRuns
import Libtarp.Lib.Run
import Libtarp.Lib.SearchTree
import Libtarp.Lib.Linked
import Libtarp.Common
import Libtarp.Avl.Model
import Libtarp.Avl.Rotation
import Libtarp.Avl.Fixup
import Libtarp.Avl.Search
import Libtarp.Avl.Update
import Libtarp.Avl.Delete
import Libtarp.Avl.Runs
import Libtarp.Avl.Clear
import Libtarp.Lib.BinHeap
import Libtarp.Vector.Vect
import Libtarp.Vector.Buffer
import Libtarp.Vector.BufferRuns
import Libtarp.Bits
import Libtarp.Heap.Order
import Libtarp.Heap.Implicit
import Libtarp.Heap.ImplicitBubble
import Libtarp.Heap.ImplicitRuns
import Libtarp.Heap.ImplicitClear
import Libtarp.Heap.Heapsort
import Libtarp.Heap.ImplicitRemove
import Libtarp.Heap.Explicit
import Libtarp.Heap.ExplicitSwap
import Libtarp.Heap.ExplicitComplete
import Libtarp.Heap.ExplicitBubble
import Libtarp.Heap.ExplicitRuns
import Libtarp.Heap.ExplicitTree
import Libtarp.Heap.PriorityQueue
import Libtarp.Lib.Chain
import Libtarp.Lib.Position
import Libtarp.HashTable.Model
import Libtarp.HashTable.Buckets
import Libtarp.HashTable.Calls
import Libtarp.HashTable.Runs
import Libtarp.HashTable.Clear
import Libtarp.HashTable.Duplicates
import Libtarp.HashTable.Insert
import Libtarp.Lib.Transition
import Libtarp.Lib.Line
import Libtarp.Channel.Trunk
import Libtarp.Channel.Rendezvous
import Libtarp.Channel.TrunkRuns
import Libtarp.Channel.TrunkClose
import Libtarp.Channel.TrunkMonitors
import Libtarp.Channel.EventChannel
import Libtarp.Channel.BoundedQueue
import Libtarp.Channel.StateMask
import Libtarp.Channel.Aggregator
import Libtarp.Channel.AggregatorRuns
import Libtarp.Channel.Monitor
import Libtarp.Channel.MonitorRuns
import Libtarp.Channel.MonitorWait
import Libtarp.Channel.Locking
import Libtarp.Channel.LockingRuns
import Libtarp.Lib.WaitFor
import Libtarp.Lib.TwoWay
import Libtarp.Dllist.Model
import Libtarp.Dllist.Calls
import Libtarp.Dllist.Runs
import Libtarp.Dllist.Foreach
import Libtarp.Dllist.Join
import Libtarp.Dllist.Swap
import Libtarp.Staq.Model
import Libtarp.Staq.Runs
import Libtarp.Staq.Join
import Libtarp.Lib.Blocks
import Libtarp.Math
import Libtarp.Checksum.Fletcher
import Libtarp.Checksum.FletcherRuns
import Libtarp.Checksum.Adler
import Libtarp.Checksum.AdlerRuns
import Libtarp.Checksum.Inet
import Libtarp.Checksum.InetRuns
import Libtarp.Checksum.InetChange
import Libtarp.Lib.Division
import Libtarp.Bits.Permutations
import Libtarp.Checksum.Crc
import Libtarp.Checksum.CrcRuns
import Libtarp.Checksum.CrcErrors
import Libtarp.Lib.Bytes
import Libtarp.Lib.PackedBits
import Libtarp.Checksum.Sha256
import Libtarp.Checksum.Fips
import Libtarp.Checksum.Sha256Runs
import Libtarp.Checksum.Hmac
import Libtarp.Checksum.Md5
import Libtarp.Checksum.Rfc1321
import Libtarp.Checksum.Md5Runs
import Libtarp.IniParse.Lexer
import Libtarp.IniParse.Parse
import Libtarp.IniParse.Steps
import Libtarp.IniParse.Layout
import Libtarp.IniParse.Tokens
import Libtarp.IniParse.Lines
import Libtarp.IniParse.LayoutRuns
import Libtarp.IniParse.Constructs
import Libtarp.Threading.Ledger
import Libtarp.Threading.ThreadPool
import Libtarp.Threading.Steps
import Libtarp.Threading.ThreadPoolRuns
import Libtarp.Threading.Entity
import Libtarp.Threading.Watchdog
import Libtarp.Threading.WatchdogRuns
import Libtarp.Threading.Oscillator
import Libtarp.Threading.Timer
import Libtarp.Threading.Resize
import Libtarp.Threading.Semaphore
import Libtarp.Signal.Emit
import Libtarp.Signal.EmitRuns
import Libtarp.Cancellation.Token
import Libtarp.Cancellation.TokenRuns
import Libtarp.Avl.Height
import Libtarp.Avl.HeightRotation
import Libtarp.Avl.HeightRuns
import Libtarp.Avl.Check
import Libtarp.Avl.Kth
import Libtarp.Lib.BreadthFirst
import Libtarp.Avl.Levels
import Libtarp.Event.Requests
import Libtarp.Process.Async
import Libtarp.Process.AsyncRuns
import Libtarp.Lib.Ring
import Libtarp.Channel.RoundRobin
import Libtarp.Channel.Broadcaster
import Libtarp.Bitarray.Model
import Libtarp.Bitarray.Repeat
import Libtarp.Bitarray.Bulk
import Libtarp.Bitarray.Shift
import Libtarp.Bitarray.Strings
import Libtarp.Bitarray.FromString
import Libtarp.Bitarray.ToString
import Libtarp.Bitarray.Allocation
import Libtarp.Bitarray.Equal
import Libtarp.Bitarray.Bitwise
import Libtarp.Bitarray.Sequences
import Libtarp.Lib.Promotion
import Libtarp.Bits.Deque
import Libtarp.Bits.Arithmetic
import Libtarp.Bits.Codec
import Libtarp.Bits.Strings
import Libtarp.Bits.Fields
import Libtarp.Bitarray.Numbers
import Libtarp.Pipeline.Stage
import Libtarp.Pipeline.Counter
import Libtarp.Pipeline.Sma
import Libtarp.Lib.Occurrences
import Libtarp.Strings.Find
import Libtarp.Strings.Split
import Libtarp.Strings.Replace
import Libtarp.IoUtils.FilesIdentical
import Libtarp.IoUtils.Transfer
import Libtarp.IoUtils.Write
import Libtarp.IoUtils.Pump
import Libtarp.IoUtils.Send
import Libtarp.IoUtils.Read
import Libtarp.IoUtils.Receive
import Libtarp.ByteBuffer.Buffer
import Libtarp.ByteBuffer.Runs
import Libtarp.Signal.Deliver
import Libtarp.Signal.Count
import Libtarp.Signal.Monosignal
import Libtarp.Lib.Owned
import Libtarp.Callback.Callback
import Libtarp.Callback.Ownership
import Libtarp.Lib.Text
import Libtarp.Strings.Strip
import Libtarp.Strings.Boolean
import Libtarp.Strings.Hex
import Libtarp.Strings.HexBytes
import Libtarp.Strings.Integer
import Libtarp.Strings.Digits
import Libtarp.Strings.Chunks
import Libtarp.IniParse.Grammar
import Libtarp.IniParse.Coverage
import Libtarp.IniParse.EmptyLists
import Libtarp.Math.Equals
import Libtarp.Math.Sqrt
import Libtarp.Math.Primes
import Libtarp.Random.Pick
