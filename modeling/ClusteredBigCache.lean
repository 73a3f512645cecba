import ClusteredBigCache.Lib.Bytes
import ClusteredBigCache.Lib.Go
import ClusteredBigCache.Lib.OrderedMap
import ClusteredBigCache.Lib.TransitionSystem
import ClusteredBigCache.Lib.Custody
import ClusteredBigCache.Lib.Linearizable
import ClusteredBigCache.Lib.Network
import ClusteredBigCache.Lib.StreamNetwork
import ClusteredBigCache.Lib.Pipeline
import ClusteredBigCache.Lib.WorkerPool
import ClusteredBigCache.Lib.Utf8
import ClusteredBigCache.Queue.FreeList
import ClusteredBigCache.Queue.FreeListSpec
import ClusteredBigCache.Queue.FreeListRuns
import ClusteredBigCache.Queue.BytesQueue
import ClusteredBigCache.Queue.Storage
import ClusteredBigCache.Queue.Leak
import ClusteredBigCache.Queue.Ring
import ClusteredBigCache.Queue.RingRuns
import ClusteredBigCache.Ttl.Manager
import ClusteredBigCache.Ttl.Eviction
import ClusteredBigCache.Cache.Config
import ClusteredBigCache.Shard.Encoding
import ClusteredBigCache.Shard.Shard
import ClusteredBigCache.Shard.Table
import ClusteredBigCache.Shard.Refinement
import ClusteredBigCache.Shard.Sequential
import ClusteredBigCache.Shard.Narrowing
import ClusteredBigCache.Shard.FullQueue
import ClusteredBigCache.Shard.Reset
import ClusteredBigCache.Shard.Registration
import ClusteredBigCache.Shard.View
import ClusteredBigCache.Shard.Linearizable
import ClusteredBigCache.Ttl.Punctual
import ClusteredBigCache.Shard.Expiry
import ClusteredBigCache.Shard.Lifetime
import ClusteredBigCache.Cache.BigCache
import ClusteredBigCache.Cache.Sharding
import ClusteredBigCache.Cache.Hashing
import ClusteredBigCache.Cache.KeyValue
import ClusteredBigCache.Cache.Limit
import ClusteredBigCache.Cache.Frame
import ClusteredBigCache.Cache.Callbacks
import ClusteredBigCache.Cache.Iterator
import ClusteredBigCache.Cache.Traversal
import ClusteredBigCache.Cache.Statistics
import ClusteredBigCache.Cache.Store
import ClusteredBigCache.Cluster.Message
import ClusteredBigCache.Cluster.Replica
import ClusteredBigCache.Cluster.SliceList
import ClusteredBigCache.Cluster.Node
import ClusteredBigCache.Cluster.Registry
import ClusteredBigCache.Cluster.Framing
import ClusteredBigCache.Cluster.Crossing
import ClusteredBigCache.Cluster.Replication
import ClusteredBigCache.Cluster.ExactlyOnce
import ClusteredBigCache.Cluster.Convergence
import ClusteredBigCache.Cluster.Links
import ClusteredBigCache.Cluster.Dispatch
import ClusteredBigCache.Cluster.ReplicaExpiry
import ClusteredBigCache.Cluster.Join
import ClusteredBigCache.Cluster.Stoppable
import ClusteredBigCache.Cluster.ShutDown
import ClusteredBigCache.Cluster.Traffic
import ClusteredBigCache.Cluster.Handshake
import ClusteredBigCache.Cluster.Peers
import ClusteredBigCache.Cluster.Seed
import ClusteredBigCache.Cluster.Member
import ClusteredBigCache.Cluster.Passive
import ClusteredBigCache.Cluster.Get
import ClusteredBigCache.Cluster.NodeId
import ClusteredBigCache.Cluster.Reply
import ClusteredBigCache.Cluster.RemoteGet
import ClusteredBigCache.Cluster.Heartbeat
import ClusteredBigCache.Cluster.PingTiming
import ClusteredBigCache.Cluster.Transport
import ClusteredBigCache.Cluster.Lifecycle
import ClusteredBigCache.Cluster.Backpressure
