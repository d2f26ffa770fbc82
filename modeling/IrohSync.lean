import IrohSync.Lib.Loop
import IrohSync.Lib.Machine
import IrohSync.Lib.FileIo
import IrohSync.Lib.Framing
import IrohSync.Lib.BinarySearch
import IrohSync.Error
import IrohSync.Change
import IrohSync.Persist.Store
import IrohSync.Persist.LogFormat
import IrohSync.Persist.Compaction
import IrohSync.Persist.Session
import IrohSync.Persist.Calls
import IrohSync.Persist.MemoryStore
import IrohSync.Persist.Reopen
import IrohSync.Persist.IndexedRead
import IrohSync.Persist.History
import IrohSync.Persist.StoreManager
import IrohSync.Persist.IndexTruth
import IrohSync.Persist.TornWrite
import IrohSync.Persist.FailedFlush
import IrohSync.Persist.Durability
import IrohSync.Persist.CompactSteps
import IrohSync.Persist.ConcurrentCalls
import IrohSync.Persist.AppendHandle
import IrohSync.Persist.ReplacedLog
import IrohSync.Lib.BoundedLog
import IrohSync.Sync.Manager
import IrohSync.Sync.Protocol
import IrohSync.Sync.Offsets
import IrohSync.Sync.RecordedLog
import IrohSync.Sync.ConcurrentLog
import IrohSync.Sync.Network
import IrohSync.Sync.ReceivingPaths
import IrohSync.Sync.Paging
import IrohSync.Sync.Pull
import IrohSync.Lib.ByteStream
import IrohSync.Sync.Connection
import IrohSync.Sync.Deadlock
import IrohSync.Lib.Channel
import IrohSync.Sync.Runner
import IrohSync.Lib.Listeners
import IrohSync.Sync.Hooks
import IrohSync.Lib.Chunks
import IrohSync.Lib.Base64
import IrohSync.Lib.Base64Image
import IrohSync.Lib.Text
import IrohSync.Common
import IrohSync.Common.Canonical
import IrohSync.Sync.PeerStates
import IrohSync.Sync.Restore
import IrohSync.Lib.Json
import IrohSync.Lib.Journal
import IrohSync.Lib.JsonRead
import IrohSync.Lib.JsonDecode
import IrohSync.Sync.WireForm
import IrohSync.Sync.FrameSize
import IrohSync.Sync.Codec
import IrohSync.Sync.SessionRun
import IrohSync.Sync.Pulled
import IrohSync.Sync.ReceiveLoop
import IrohSync.Sync.SessionExits
import IrohSync.Sync.Offered
import IrohSync.Sync.Retention
import IrohSync.Lib.Checked
import IrohSync.Sync.RequestArithmetic
import IrohSync.Sync.Finality
import IrohSync.Sync.PeerKeys
import IrohSync.Lib.Slots
import IrohSync.Snapshot.Database
import IrohSync.Snapshot.Transfer
import IrohSync.Snapshot.Lossless
import IrohSync.Snapshot.Delivery
import IrohSync.Snapshot.Untrusted
import IrohSync.Snapshot.Checksum
import IrohSync.Snapshot.Grouping
import IrohSync.Snapshot.Shipping
import IrohSync.Batch.Batcher
import IrohSync.Batch.Conservation
import IrohSync.Batch.BatchStream
import IrohSync.Lib.Turns
import IrohSync.Batch.Interleaving
import IrohSync.Batch.BatchOrder
import IrohSync.Batch.AgeTimer
import IrohSync.Lib.Watch
import IrohSync.Batch.FlushTask
import IrohSync.Batch.SingleCaller
import IrohSync.Batch.BatchingManager
import IrohSync.Lib.Locks
import IrohSync.Batch.LockOrder
import IrohSync.Lib.Broadcast
import IrohSync.Lib.Table
import IrohSync.Notify.Notifier
import IrohSync.Notify.Subscriptions
import IrohSync.Notify.Delivery
import IrohSync.Notify.Feed
import IrohSync.Notify.Sequence
import IrohSync.Notify.Observers
import IrohSync.Pool.ConnectionPool
import IrohSync.Pool.OneUser
import IrohSync.Pool.Reuse
import IrohSync.Pool.Capacity
import IrohSync.Pool.Cleanup
import IrohSync.Reputation.Manager
import IrohSync.Reputation.Outcomes
import IrohSync.Lib.Attempts
import IrohSync.Discovery.Tickets
import IrohSync.Discovery.Peers
import IrohSync.Discovery.TicketSessions
import IrohSync.Discovery.ConnectTicket
import IrohSync.Replicator.Lifecycle
import IrohSync.Replicator.Restart
import IrohSync.Retry.Operation
import IrohSync.Lib.Followers
import IrohSync.Sync.Replicas
import IrohSync.Sync.Validity
import IrohSync.Sync.Served
import IrohSync.Sync.SharedNode
import IrohSync.Sync.WireReplicas
