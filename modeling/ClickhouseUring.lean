import ClickhouseUring.Backup.Accounting
import ClickhouseUring.Backup.Order
import ClickhouseUring.Kit.Reorder
import ClickhouseUring.Backup.Processes
import ClickhouseUring.Backup.Order
import ClickhouseUring.Backup.Reordered
import ClickhouseUring.WriteBatcher.Hooks
import ClickhouseUring.WriteBatcher.Accounting
import ClickhouseUring.WriteBatcher.File
import ClickhouseUring.User.Probes
import ClickhouseUring.User.Bytes
import ClickhouseUring.User.Isolation
import ClickhouseUring.User.Consumer
import ClickhouseUring.User.Polling
import ClickhouseUring.Batch.Probes
import ClickhouseUring.Batch.Bytes
import ClickhouseUring.Requests
import ClickhouseUring.Batch.Destinations
import ClickhouseUring.User.Counter
import ClickhouseUring.Kit.CInt
import ClickhouseUring.Kit.Fifo
import ClickhouseUring.Pipeline.Ring
import ClickhouseUring.Kit.CString
import ClickhouseUring.Pipeline.Dispatcher
import ClickhouseUring.Hotpatch.Hooks
import ClickhouseUring.Hotpatch.Once
import ClickhouseUring.Hotpatch.Accounting
import ClickhouseUring.Echo.RoundTrip
import ClickhouseUring.Writeback.Hooks
import ClickhouseUring.Kit.Queues
import ClickhouseUring.UringClient.Client
import ClickhouseUring.UringClient.Accounting
import ClickhouseUring.UringClient.Batches
import ClickhouseUring.UringClient.Sent
import ClickhouseUring.Backup.Slots
import ClickhouseUring.Kit.RingBuffer
import ClickhouseUring.User.Backed
import ClickhouseUring.Writeback.Credits
import ClickhouseUring.Writeback.Skipped
import ClickhouseUring.Batch.Waits
import ClickhouseUring.FsyncPoc.Loop
import ClickhouseUring.FsyncPoc.Balance
import ClickhouseUring.FsyncPoc.FastPath
import ClickhouseUring.Kit.Chunks
import ClickhouseUring.VanillaRead.Benchmark
import ClickhouseUring.VanillaRead.Coverage
import ClickhouseUring.Kit.Handles
import ClickhouseUring.UringClient.Main
import ClickhouseUring.UringClient.Descriptors
import ClickhouseUring.UringCopy.Copy
import ClickhouseUring.UringCopy.Matching
import ClickhouseUring.Attach.Override
import ClickhouseUring.User.Strcmp
import ClickhouseUring.FsyncLatency.Probes
import ClickhouseUring.FsyncLatency.Pairing
import ClickhouseUring.FsyncLatency.Averages
import ClickhouseUring.User.Filter
import ClickhouseUring.FileCopy.Loop
import ClickhouseUring.FileCopy.Copies
import ClickhouseUring.UringClient.Stored
import ClickhouseUring.Kit.Transitions
import ClickhouseUring.Echo.Protocol
import ClickhouseUring.Echo.Interleaving
import ClickhouseUring.Echo.Outcome
import ClickhouseUring.Kit.Disk
import ClickhouseUring.WriteBatcher.FsyncWrite
import ClickhouseUring.FileCopy.Patched
import ClickhouseUring.ReadUring
import ClickhouseUring.Kit.LittleEndian
import ClickhouseUring.Kit.Records
import ClickhouseUring.Getdents
import ClickhouseUring.Batch.Deployment
import ClickhouseUring.Kit.Lag
import ClickhouseUring.UringCopy.Content
import ClickhouseUring.UringCopy.Sends
import ClickhouseUring.UringCopy.Stores
import ClickhouseUring.OpCount.Hooks
import ClickhouseUring.OpCount.Lost
import ClickhouseUring.OpCount.Exact
import ClickhouseUring.Kit.Cleanup
import ClickhouseUring.Loaders
import ClickhouseUring.Kit.Bucket
import ClickhouseUring.FsyncPoc.Drift
import ClickhouseUring.Hotpatch.Threads
import ClickhouseUring.Hotpatch.Deadlock
