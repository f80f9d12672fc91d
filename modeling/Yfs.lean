import Yfs.Library.Trace
import Yfs.Library.Simulation
import Yfs.Library.History
import Yfs.Library.Stream
import Yfs.Library.SortedMap
import Yfs.Library.Queue
import Yfs.Library.Overwrite
import Yfs.Library.Scan
import Yfs.Library.Word
import Yfs.Library.Decimal
import Yfs.Library.Txn
import Yfs.Library.TwoPhase
import Yfs.Library.Serial
import Yfs.Library.LockOrder
import Yfs.Library.CondVar
import Yfs.Library.Threads
import Yfs.Core.Protocol
import Yfs.Core.Marshall
import Yfs.Core.Containers
import Yfs.Core.Stubs
import Yfs.Core.Messages
import Yfs.Core.Rpc
import Yfs.Core.Dispatch
import Yfs.Core.Restart
import Yfs.Core.ReplyBuffers
import Yfs.Core.RpcClient
import Yfs.Core.Draining
import Yfs.Core.Deadline
import Yfs.Core.ThreadPool
import Yfs.Core.BlockingFifo
import Yfs.Core.Handle
import Yfs.Core.Connection
import Yfs.Core.Channel
import Yfs.Core.RecvBuffer
import Yfs.Core.PollMgr
import Yfs.Core.EPoll
import Yfs.Core.PolledConnection
import Yfs.Core.LockProtocol
import Yfs.Core.LockServer
import Yfs.Core.BlockingLockServer
import Yfs.Core.LockHandlers
import Yfs.Core.Extent
import Yfs.Core.ExtentSession
import Yfs.Core.Directory
import Yfs.Core.Positions
import Yfs.Core.YfsClient
import Yfs.Core.Fuse
import Yfs.Core.FuseServer
import Yfs.Core.Cluster
import Yfs.Core.Service
import Yfs.Core.Sharing
import Yfs.Theory.Marshalling
import Yfs.Theory.Containers
import Yfs.Theory.WireAgreement
import Yfs.Theory.Canonical
import Yfs.Theory.MarshallBounds
import Yfs.Theory.AckWindow
import Yfs.Theory.ReplyWindow
import Yfs.Theory.ReplyTable
import Yfs.Theory.Acknowledge
import Yfs.Theory.AtMostOnce
import Yfs.Theory.ReplyMatching
import Yfs.Theory.Draining
import Yfs.Theory.PduFraming
import Yfs.Theory.Messages
import Yfs.Theory.ReceiveBounds
import Yfs.Theory.LockSteps
import Yfs.Theory.LockWaiting
import Yfs.Theory.LockExclusion
import Yfs.Theory.LockService
import Yfs.Theory.BlockingLockServer
import Yfs.Theory.LockDeadlock
import Yfs.Theory.LockRevocation
import Yfs.Theory.LockBalance
import Yfs.Theory.GrantExclusivity
import Yfs.Theory.RevokeAddress
import Yfs.Theory.ExtentStore
import Yfs.Theory.CacheTransparency
import Yfs.Theory.Operations
import Yfs.Theory.FileContent
import Yfs.Theory.Sharing
import Yfs.Theory.Resize
import Yfs.Theory.WriteBack
import Yfs.Theory.Tokenising
import Yfs.Theory.DirectoryFormat
import Yfs.Theory.DirectoryMap
import Yfs.Theory.Unlinking
import Yfs.Theory.CreationAtomicity
import Yfs.Theory.FreshInum
import Yfs.Theory.FuseReplies
import Yfs.Theory.FileSystem
import Yfs.Theory.FileSystemRefinement
import Yfs.Theory.KeptLocks
import Yfs.Theory.MountedFileSystem
import Yfs.Theory.Serializability
import Yfs.Theory.Service
import Yfs.Theory.Deployment
import Yfs.Theory.OrderedLocking
import Yfs.Theory.Deadline
import Yfs.Theory.Retransmission
import Yfs.Theory.ThreadPool
import Yfs.Theory.BlockingFifo
import Yfs.Theory.PollBarrier
import Yfs.Theory.SelectRange
import Yfs.Theory.EPollAgreement
import Yfs.Theory.DeadConnection
import Yfs.Theory.Channel
import Yfs.Theory.DispatchBalance
import Yfs.Theory.ReplyOrigin
import Yfs.Theory.ForeignInstance
import Yfs.Theory.CallResults
import Yfs.Theory.ReplyBuffers
import Yfs.Theory.Handles
