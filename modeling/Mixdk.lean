import Mixdk.Lib.Transition
import Mixdk.Lib.Fair
import Mixdk.Lib.Linearizable
import Mixdk.Lib.Lanes
import Mixdk.Lib.Footprint
import Mixdk.Lib.Crc
import Mixdk.Lib.CyclicSearch
import Mixdk.Lib.Ring
import Mixdk.Lib.Runs
import Mixdk.Lib.Counters
import Mixdk.Lib.LinkedList
import Mixdk.Core.Task
import Mixdk.Core.Bitmap
import Mixdk.Lib.BitMix
import Mixdk.Lib.ChainTable
import Mixdk.Core.Hash
import Mixdk.Lib.KeyStack
import Mixdk.Hash.Stacks
import Mixdk.Hash.Heap
import Mixdk.Hash.Chains
import Mixdk.Hash.Concurrent
import Mixdk.Hash.Membership
import Mixdk.Hash.DrainAll
import Mixdk.Bitmap.SetRefinement
import Mixdk.Bitmap.NextFit
import Mixdk.Bloom.CountingBitmap
import Mixdk.Bloom.Filter
import Mixdk.Bloom.PackedCounters
import Mixdk.Core.Nvm
import Mixdk.Core.Metadata
import Mixdk.Hash.Traversal
import Mixdk.Core.Machine
import Mixdk.Core.Migrate
import Mixdk.Core.Worker
import Mixdk.Migration.Drain
import Mixdk.Migration.Staging
import Mixdk.Migration.Alone
import Mixdk.Migration.Segment
import Mixdk.Migration.Partition
import Mixdk.Migration.SharedSlots
import Mixdk.Index.Indexed
import Mixdk.Index.Update
import Mixdk.Index.Operations
import Mixdk.Index.SmallWrite
import Mixdk.Index.Accounting
import Mixdk.Index.Restart
import Mixdk.Index.Agreement
import Mixdk.Migration.DeviceFailure
import Mixdk.Index.MergedRead
import Mixdk.Index.ClearBlock
import Mixdk.Core.Scheduler
import Mixdk.Async.Effects
import Mixdk.Async.Work
import Mixdk.Async.Subtask
import Mixdk.Async.System
import Mixdk.Async.Settle
import Mixdk.Async.Equivalence
import Mixdk.Handshake.QueueEmpty
import Mixdk.Handshake.Rounds
import Mixdk.Handshake.Startup
import Mixdk.Queue.Core
import Mixdk.Queue.Fifo
import Mixdk.Queue.Spsc
import Mixdk.Queue.Atomic
import Mixdk.Queue.Bounds
import Mixdk.Queue.LockFree
import Mixdk.Pipeline.Polling
import Mixdk.Pipeline.System
import Mixdk.Pipeline.Stripes
import Mixdk.Pipeline.Dispatch
import Mixdk.Pipeline.Steps
import Mixdk.Pipeline.Actions
import Mixdk.Pipeline.Slots
import Mixdk.Pipeline.Indexes
import Mixdk.Pipeline.Owed
import Mixdk.Pipeline.Weight
import Mixdk.Pipeline.Accounting
import Mixdk.Pipeline.Batch
import Mixdk.Pipeline.Draining
import Mixdk.Pipeline.Steady
import Mixdk.Pipeline.Helps
import Mixdk.Pipeline.Rest
import Mixdk.Joint.System
import Mixdk.Joint.Waits
import Mixdk.Joint.Links
import Mixdk.Joint.Helps
import Mixdk.Joint.Rest
import Mixdk.Pipeline.Completion
import Mixdk.Pipeline.Returns
import Mixdk.Joint.Returns
import Mixdk.Pipeline.Release
import Mixdk.Lib.StoreLog
import Mixdk.Pipeline.NvmOrder
import Mixdk.Pipeline.ProgramOrder
import Mixdk.EndToEnd.Elsewhere
import Mixdk.EndToEnd.Content
import Mixdk.EndToEnd.Migrating
import Mixdk.EndToEnd.ReadYourWrites
import Mixdk.Durability.Stores
import Mixdk.Durability.Recovery
import Mixdk.Durability.Midway
import Mixdk.Durability.Device
import Mixdk.Durability.Ledger
import Mixdk.Durability.CrashSafety
import Mixdk.Durability.Scan
import Mixdk.Durability.Publish
import Mixdk.Lib.Words
import Mixdk.Durability.Records
import Mixdk.Durability.RoundTrip
import Mixdk.Durability.Mapping
import Mixdk.Durability.Pmem
import Mixdk.Lib.HeapLog
import Mixdk.Hash.KeyHash
import Mixdk.Bloom.Murmur
import Mixdk.Bloom.KeyMurmur
import Mixdk.Bloom.History
import Mixdk.Hash.Lifetime
import Mixdk.Serial.Chores
import Mixdk.Serial.Tasks
import Mixdk.Serial.Settle
import Mixdk.Serial.Swap
import Mixdk.Serial.Equivalence
import Mixdk.Serial.Disk
import Mixdk.Serial.Reads
import Mixdk.Serial.Linear
import Mixdk.Serial.Large
