import Hs5.Support.Transition
import Hs5.Support.OrderedMap
import Hs5.Support.Cover
import Hs5.Support.Crc
import Hs5.Data.VarInt
import Hs5.Storage.Extent
import Hs5.Storage.Freemap
import Hs5.Storage.Allocator
import Hs5.Storage.CommitSpec
import Hs5.Storage.Partition
import Hs5.Wal.DirtyBlocks
import Hs5.Durability.System
import Hs5.Wal.DataQueue
import Hs5.Durability.Steps
import Hs5.Durability.LogData
import Hs5.Durability.Truncation
import Hs5.Durability.Chains
import Hs5.Durability.Durable
import Hs5.Durability.Acknowledge
import Hs5.Data.Serialize
import Hs5.Wal.Codec
import Hs5.Wal.Recovery
import Hs5.Wal.Restart
import Hs5.Wal.RestartInv
import Hs5.Wal.Appendable
import Hs5.Storage.Frontier
import Hs5.Storage.Node
import Hs5.Storage.Replay
import Hs5.Storage.Startable
import Hs5.Storage.NodeInv
import Hs5.Storage.NodeRun
import Hs5.Storage.Recovered
import Hs5.Storage.NoReuse
import Hs5.Storage.FreeCounter
import Hs5.Storage.Coverage
import Hs5.Storage.NoLeak
import Hs5.S3.Keys
import Hs5.S3.Metadata
import Hs5.S3.CommitQueue
import Hs5.S3.Process
import Hs5.S3.Retention
import Hs5.S3.Server
import Hs5.S3.Formed
import Hs5.S3.History
import Hs5.S3.Pending
import Hs5.S3.Conditional
import Hs5.S3.Newest
import Hs5.Storage.Readers
import Hs5.Storage.ReaderSteps
import Hs5.Storage.TrimSafe
import Hs5.Storage.CommitItems
import Hs5.Storage.Pins
import Hs5.Storage.ReadSafe
import Hs5.Support.Gather
import Hs5.S3.Deferred
import Hs5.S3.DeferredSafe
import Hs5.Storage.PinMarks
import Hs5.S3.PinsReleased
import Hs5.S3.ReadOwnWrites
import Hs5.S3.Adds
import Hs5.S3.FreshIds
import Hs5.S3.Buckets
import Hs5.S3.BucketIsolation
import Hs5.Storage.FreemapExact
import Hs5.S3.FormUpload
import Hs5.Data.GetVarint
import Hs5.Storage.IndexCodec
import Hs5.S3.KeyCodec
import Hs5.Auth.SessionLocks
import Hs5.Storage.MultiFile
import Hs5.Storage.FlatFile
import Hs5.S3.MultipartRead
import Hs5.Support.Progress
import Hs5.Support.Slice
import Hs5.S3.MultipartExact
import Hs5.Storage.FreespaceCheck
import Hs5.Auth.Actions
import Hs5.Auth.ResourceMatch
import Hs5.S3.PartMap
import Hs5.Auth.Policy
import Hs5.S3.MetadataCodec
import Hs5.S3.RecordCodec
import Hs5.S3.RecordModify
import Hs5.Storage.FreeOrder
import Hs5.S3.Checksum
import Hs5.S3.PartNumber
import Hs5.S3.Range
import Hs5.S3.BodyPlacement
