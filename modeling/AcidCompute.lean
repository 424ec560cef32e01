import AcidCompute.Base.Blocks
import AcidCompute.Base.ByteOrder
import AcidCompute.Base.Collection
import AcidCompute.Base.Comparison
import AcidCompute.Base.Decoder
import AcidCompute.Base.FlatArray
import AcidCompute.Base.GroupText
import AcidCompute.Base.History
import AcidCompute.Base.Machine
import AcidCompute.Base.Monitor
import AcidCompute.Base.Multimap
import AcidCompute.Base.NodeMap
import AcidCompute.Base.Numeral
import AcidCompute.Base.OrderedSet
import AcidCompute.Base.Outcome
import AcidCompute.Base.Replica
import AcidCompute.Base.Sections
import AcidCompute.Base.Text
import AcidCompute.Base.Varint
import AcidCompute.ByteArray.Basic
import AcidCompute.ByteArray.Buffers
import AcidCompute.ByteArray.Calls
import AcidCompute.ByteArray.Codec
import AcidCompute.ByteArray.Described
import AcidCompute.ByteArray.Files
import AcidCompute.ByteArray.Flat
import AcidCompute.ByteArray.Malformed
import AcidCompute.ByteArray.Reachable
import AcidCompute.ByteArray.ReadAt
import AcidCompute.ByteArray.Refine
import AcidCompute.ByteArray.Strings
import AcidCompute.ByteArray.Uses
import AcidCompute.ByteArray.Varints
import AcidCompute.Common.DescriptorCalls
import AcidCompute.Common.Descriptors
import AcidCompute.Common.DoIo
import AcidCompute.Common.DoIoTimeout
import AcidCompute.Common.Env
import AcidCompute.Common.Hook
import AcidCompute.Config.ConfDir
import AcidCompute.Config.Containers
import AcidCompute.Config.LexicalCast
import AcidCompute.Config.Load
import AcidCompute.Config.Table
import AcidCompute.Config.Var
import AcidCompute.Http.Buffer
import AcidCompute.Http.Dump
import AcidCompute.Http.Message
import AcidCompute.Http.Parse
import AcidCompute.Http.Server
import AcidCompute.Http.Servlet
import AcidCompute.Http.Session
import AcidCompute.IOManager.Basic
import AcidCompute.IOManager.Calls
import AcidCompute.IOManager.Contexts
import AcidCompute.IOManager.Loop
import AcidCompute.IOManager.Sections
import AcidCompute.IOManager.Shutdown
import AcidCompute.IOManager.Sleep
import AcidCompute.IOManager.Table
import AcidCompute.IOManager.Timeout
import AcidCompute.IOManager.Wakeup
import AcidCompute.Logger.Basic
import AcidCompute.Logger.Format
import AcidCompute.Logger.Lifetime
import AcidCompute.Logger.Pattern
import AcidCompute.Logger.Queues
import AcidCompute.Net.Address
import AcidCompute.Net.FixSize
import AcidCompute.Net.IPv6
import AcidCompute.Net.LookUp
import AcidCompute.Net.Stream
import AcidCompute.Rpc.Agreement
import AcidCompute.Rpc.Call
import AcidCompute.Rpc.CallTimeout
import AcidCompute.Rpc.Client
import AcidCompute.Rpc.ClientClose
import AcidCompute.Rpc.ClientIds
import AcidCompute.Rpc.DiscoverResponse
import AcidCompute.Rpc.Discovery
import AcidCompute.Rpc.Exchange
import AcidCompute.Rpc.Execution
import AcidCompute.Rpc.Handlers
import AcidCompute.Rpc.Heartbeat
import AcidCompute.Rpc.Pool
import AcidCompute.Rpc.PoolCalls
import AcidCompute.Rpc.PoolClose
import AcidCompute.Rpc.PoolConnections
import AcidCompute.Rpc.PoolHeartbeat
import AcidCompute.Rpc.Protocol
import AcidCompute.Rpc.Provider
import AcidCompute.Rpc.ProviderTables
import AcidCompute.Rpc.Publications
import AcidCompute.Rpc.Publish
import AcidCompute.Rpc.Reconnect
import AcidCompute.Rpc.Registry
import AcidCompute.Rpc.RegistryClient
import AcidCompute.Rpc.RegistrySessions
import AcidCompute.Rpc.RegistryTable
import AcidCompute.Rpc.Result
import AcidCompute.Rpc.ResultSequence
import AcidCompute.Rpc.RouteStrategy
import AcidCompute.Rpc.Served
import AcidCompute.Rpc.Server
import AcidCompute.Rpc.Session
import AcidCompute.Rpc.SubscribeResponse
import AcidCompute.Scheduler.Basic
import AcidCompute.Scheduler.Idle
import AcidCompute.Scheduler.Switch
import AcidCompute.Scheduler.Tasks
import AcidCompute.Serializer.Basic
import AcidCompute.Serializer.Elements
import AcidCompute.Serializer.Format
import AcidCompute.Serializer.Nested
import AcidCompute.Serializer.Received
import AcidCompute.Serializer.RoundTrip
import AcidCompute.Sync.Channel
import AcidCompute.Sync.CoCond
import AcidCompute.Sync.CoCountDownLatch
import AcidCompute.Sync.CoMonitor
import AcidCompute.Sync.CoMonitorQuiet
import AcidCompute.Sync.CoMonitorSteps
import AcidCompute.Sync.CoMutex
import AcidCompute.Sync.CoMutexQueue
import AcidCompute.Sync.CoSemaphore
import AcidCompute.Sync.Waiting
import AcidCompute.Timer.Basic
import AcidCompute.Timer.Deadlines
import AcidCompute.Timer.Expired
import AcidCompute.Timer.Front
import AcidCompute.Timer.Order
import AcidCompute.Timer.Runs
import AcidCompute.Timer.Threads
