import MsgHandler.Framing
import MsgHandler.Tokens
import MsgHandler.Chain
import MsgHandler.Message
import MsgHandler.Connection
import MsgHandler.Reassembly
import MsgHandler.Heap
import MsgHandler.Sampling
import MsgHandler.Counting
import MsgHandler.AppConnection
import MsgHandler.FrameBounds
import MsgHandler.Run
import MsgHandler.RoundTrip
import MsgHandler.Teardown
import MsgHandler.Extraction
import MsgHandler.IoApp
import MsgHandler.Accounting
import MsgHandler.Pending
import MsgHandler.Outgoing
import MsgHandler.UserRouter
import MsgHandler.Rerouting
import MsgHandler.Doorbell
import MsgHandler.Notify
import MsgHandler.Parser
import MsgHandler.Workers
import MsgHandler.Pipeline
import MsgHandler.IoMessages
import MsgHandler.Registry
import MsgHandler.Gate
import MsgHandler.Binding
import MsgHandler.Disposal
import MsgHandler.Broker
import MsgHandler.TargetArray
import MsgHandler.PackHandling
import MsgHandler.LocalRouter
import MsgHandler.Isolation
import MsgHandler.Limits
import MsgHandler.Admission
import MsgHandler.Collector
import MsgHandler.Erasure
import MsgHandler.SideIndex
import MsgHandler.EditScript
import MsgHandler.Fifo
import MsgHandler.Ring
import MsgHandler.Redis
import MsgHandler.MultiGet
import MsgHandler.Pilot.ConnPool
import MsgHandler.Pilot.PoolBound
import MsgHandler.Pilot.PooledClient
import MsgHandler.Pilot.Registration
import MsgHandler.Pilot.UpdateTasks
import MsgHandler.Pilot.TaskFlow
import MsgHandler.Pilot.ReplicaMap
import MsgHandler.Pilot.Refresh
import MsgHandler.Pilot.Convergence
import MsgHandler.Pilot.Service
import MsgHandler.Pilot.Release
import MsgHandler.Pilot.Pools
import MsgHandler.Pilot.RoundRobin
import MsgHandler.CacheNodes
import MsgHandler.PriorityQueue
import MsgHandler.EditDistance
import MsgHandler.Lcss
import MsgHandler.Fields
import MsgHandler.Split
import MsgHandler.Runs
import MsgHandler.Trim
import MsgHandler.Pattern
import MsgHandler.IniFile
import MsgHandler.IniLookup
import MsgHandler.IniSections
import MsgHandler.Decimal
import MsgHandler.Commands
import MsgHandler.RouteInfo
import MsgHandler.LimitQueue
import MsgHandler.PushList
import MsgHandler.SimpleQueue
import MsgHandler.BatchGet
import MsgHandler.BlockQueue
import MsgHandler.Grouping
import MsgHandler.LinkedList
import MsgHandler.ImCodec
import MsgHandler.Consumers
import MsgHandler.Pilot.WaitList
import MsgHandler.BinaryProtocol
import MsgHandler.MessageRpc
import MsgHandler.Pilot.Proxy
