import Skyext.BinaryHeap.Heap
import Skyext.BinaryHeap.Plain
import Skyext.BinaryHeap.Refines
import Skyext.BinaryHeap.Sift
import Skyext.BinaryHeap.Unique
import Skyext.Config.Config
import Skyext.Config.Getters
import Skyext.Config.Numeral
import Skyext.Config.NumeralRead
import Skyext.Config.Source
import Skyext.Config.Trip
import Skyext.Db.Collection
import Skyext.Db.Dbmgr
import Skyext.Db.Fenced
import Skyext.Db.SaveWheel
import Skyext.Db.Superseded
import Skyext.Db.WheelCoverage
import Skyext.Db.WheelSound
import Skyext.Discovery.Converges
import Skyext.Discovery.Membership
import Skyext.Discovery.Service
import Skyext.Discovery.ServiceObj
import Skyext.Entity.Call
import Skyext.Entity.CallOnce
import Skyext.Entity.Hooks
import Skyext.Entity.HooksOnce
import Skyext.Entity.Idle
import Skyext.Entity.Kept
import Skyext.Entity.Mgr
import Skyext.Entity.NotStuck
import Skyext.Entity.Placement
import Skyext.Entity.Shutdown
import Skyext.Entity.Tended
import Skyext.Entity.Timers
import Skyext.Entity.TimersSound
import Skyext.Entity.UnloadEnds
import Skyext.Etcd.Codec
import Skyext.Etcd.Endpoints
import Skyext.Etcd.Transport
import Skyext.Fs.Copy
import Skyext.Fs.Files
import Skyext.Fs.Fs
import Skyext.Fs.Paths
import Skyext.Fs.Remove
import Skyext.Fs.Tree
import Skyext.Fs.Walk
import Skyext.Gating.Gates
import Skyext.Gating.Serialized
import Skyext.Hotfix.Lock
import Skyext.Http.Deadline
import Skyext.Lease.Client
import Skyext.Lease.Events
import Skyext.Lease.Final
import Skyext.Lease.Service
import Skyext.Lease.Sound
import Skyext.Lib.Argmax
import Skyext.Lib.Binary64
import Skyext.Lib.Fifo
import Skyext.Lib.HeapOrder
import Skyext.Lib.Lexicographic
import Skyext.Lib.LuaNumber
import Skyext.Lib.LuaSums
import Skyext.Lib.Machine
import Skyext.Lib.Parents
import Skyext.Lib.Prog
import Skyext.Lib.Snoc
import Skyext.Lib.Turns
import Skyext.Lib.Window
import Skyext.Lock.Cluster
import Skyext.Lock.DistributedLock
import Skyext.Lock.Etcd
import Skyext.Lock.Invariant
import Skyext.Lock.MutualExclusion
import Skyext.Log.File
import Skyext.Log.Rotation
import Skyext.Metrics.Exact
import Skyext.Metrics.Maps
import Skyext.Metrics.Merge
import Skyext.Metrics.OrderFree
import Skyext.Metrics.Unrounded
import Skyext.Orm.Accepted
import Skyext.Orm.Containment
import Skyext.Orm.Contents
import Skyext.Orm.Doc
import Skyext.Orm.Forest
import Skyext.Orm.Kinds
import Skyext.Orm.NewDoc
import Skyext.Orm.Refines
import Skyext.Orm.Rejected
import Skyext.Orm.Reload
import Skyext.Orm.Reloaded
import Skyext.Orm.Schema
import Skyext.Orm.Sequence
import Skyext.Orm.Snapshot
import Skyext.Orm.Sound
import Skyext.Orm.System
import Skyext.Orm.Writes
import Skyext.Realm.Directory
import Skyext.Reliable.AtLeastOnce
import Skyext.Reliable.Delivery
import Skyext.Reliable.Message
import Skyext.Reliable.Paging
import Skyext.Reliable.Poison
import Skyext.Reliable.PoisonExact
import Skyext.Sdk.Decode
import Skyext.Sdk.DecodeTrip
import Skyext.Sdk.DecodeWire
import Skyext.Sdk.Frames
import Skyext.Sdk.Integers
import Skyext.Sdk.IntegersTrip
import Skyext.Sdk.Json
import Skyext.Sdk.JsonExact
import Skyext.Sdk.JsonTokens
import Skyext.Sdk.Pack
import Skyext.Sdk.PackBlocks
import Skyext.Sdk.PackTrip
import Skyext.Sdk.Struct
import Skyext.Sdk.StructWire
import Skyext.Sdk.Wire
import Skyext.Session.AtMostOnce
import Skyext.Session.Buffer
import Skyext.Session.Cache
import Skyext.Session.Client
import Skyext.Session.Cluster
import Skyext.Session.Conns
import Skyext.Session.Counting
import Skyext.Session.ExactlyOnce
import Skyext.Session.Handover
import Skyext.Session.Handshake
import Skyext.Session.Io
import Skyext.Session.Link
import Skyext.Session.NoGhost
import Skyext.Session.Replay
import Skyext.Session.Responses
import Skyext.Session.ResponsesSound
import Skyext.Session.Resume
import Skyext.Session.Service
import Skyext.Session.Transit
import Skyext.Session.Uplink
import Skyext.Session.UplinkOrder
import Skyext.Shutdown.Exit
import Skyext.Shutdown.Node
import Skyext.Snowflake.Held
import Skyext.Snowflake.IdGenerator
import Skyext.Snowflake.IdsOnce
import Skyext.Snowflake.MachineSlot
import Skyext.Snowflake.Released
import Skyext.Snowflake.Service
import Skyext.Snowflake.Unique
import Skyext.Sproto.Dispatch
import Skyext.Timer.Heap
import Skyext.Timer.HeapRefines
import Skyext.Timer.Scheduler
import Skyext.Timer.Sound
