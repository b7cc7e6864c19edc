import SwitchDelta.Foundation.ByteRange
import SwitchDelta.Fs.BitmapRuns
import SwitchDelta.Fs.BlockTable
import SwitchDelta.Fs.ClientChunks
import SwitchDelta.Fs.CopyOnWrite
import SwitchDelta.Fs.Deadlock
import SwitchDelta.Fs.Directories
import SwitchDelta.Fs.DirectoryBounds
import SwitchDelta.Fs.DirectoryMarker
import SwitchDelta.Fs.ExtentRead
import SwitchDelta.Fs.FailedCreate
import SwitchDelta.Fs.LocalLog
import SwitchDelta.Fs.LockService
import SwitchDelta.Fs.MemoryLayout
import SwitchDelta.Fs.MetadataFrame
import SwitchDelta.Fs.PathStrings
import SwitchDelta.Fs.ReadPath
import SwitchDelta.Fs.StackMkdir
import SwitchDelta.Fs.Table
import SwitchDelta.Fs.TableMap
import SwitchDelta.Fs.Transactions
import SwitchDelta.Kv.BatchBounds
import SwitchDelta.Kv.BatchRuns
import SwitchDelta.Kv.CoroBatch
import SwitchDelta.Kv.Execution
import SwitchDelta.Kv.FlowControl
import SwitchDelta.Kv.IndexThread
import SwitchDelta.Kv.SendRing
import SwitchDelta.Perf.Percentiles
import SwitchDelta.Protocol.Backlog
import SwitchDelta.Protocol.Clock
import SwitchDelta.Protocol.BatchReads
import SwitchDelta.Protocol.BatchThread
import SwitchDelta.Protocol.FirstWriter
import SwitchDelta.Protocol.ReadValue
import SwitchDelta.Protocol.Rest
import SwitchDelta.Protocol.Refinement
import SwitchDelta.Protocol.Replies
import SwitchDelta.Protocol.RpcIds
import SwitchDelta.Rdma.ClientThread
import SwitchDelta.Rdma.OpCount
import SwitchDelta.Rdma.RecvRegion
import SwitchDelta.Rdma.Resumption
import SwitchDelta.Rdma.SendQueue
import SwitchDelta.Rdma.SendWait
import SwitchDelta.Secondary.Freshness
import SwitchDelta.Secondary.Inverse
import SwitchDelta.Switch.SplitSlot
import SwitchDelta.Switch.TimestampGuard
import SwitchDelta.Foundation.HeaderFields
import SwitchDelta.Switch.Frames
import SwitchDelta.Rdma.RoceHeader
import SwitchDelta.Kv.WireBytes
import SwitchDelta.Protocol.Values
import SwitchDelta.Fs.NameService
import SwitchDelta.Fs.DataServer
