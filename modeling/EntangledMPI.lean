import EntangledMPI.Checkpoint.FullContext
import EntangledMPI.Checkpoint.Interrupted
import EntangledMPI.Checkpoint.Reading
import EntangledMPI.Checkpoint.RoundTrip
import EntangledMPI.Checkpoint.StackContext
import EntangledMPI.FaultInjector.Injector
import EntangledMPI.FaultInjector.NetworkMap
import EntangledMPI.FaultInjector.ReplicationMap
import EntangledMPI.FaultInjector.Search
import EntangledMPI.FaultInjector.Selector
import EntangledMPI.Library.Assignments
import EntangledMPI.Library.Broadcasts
import EntangledMPI.Library.ByteStream
import EntangledMPI.Library.CountingLoop
import EntangledMPI.Library.GroupSplit
import EntangledMPI.Library.LinkedCells
import EntangledMPI.Library.MessageNetwork
import EntangledMPI.Library.RecordFile
import EntangledMPI.Library.Renumbering
import EntangledMPI.Library.Streams
import EntangledMPI.Library.TextInput
import EntangledMPI.Library.TypeMap
import EntangledMPI.Library.WhileLoop
import EntangledMPI.Manager.JobMap
import EntangledMPI.Manager.Placing
import EntangledMPI.Manager.Returning
import EntangledMPI.Manager.Rounds
import EntangledMPI.Manager.Sizes
import EntangledMPI.Manager.StackFile
import EntangledMPI.Manager.WrittenMaps
import EntangledMPI.Manager.WrittenTexts
import EntangledMPI.Misc.File
import EntangledMPI.Misc.RecordWriters
import EntangledMPI.Mpi.AnySource
import EntangledMPI.Mpi.Async
import EntangledMPI.Mpi.Bcast
import EntangledMPI.Mpi.BlockingPrograms
import EntangledMPI.Mpi.Collective
import EntangledMPI.Mpi.CollectiveRuns
import EntangledMPI.Mpi.Comm
import EntangledMPI.Mpi.FailedRoot
import EntangledMPI.Mpi.FailureNotice
import EntangledMPI.Mpi.FaultyRuns
import EntangledMPI.Mpi.FaultyTransfers
import EntangledMPI.Mpi.IgnoreMap
import EntangledMPI.Mpi.IgnoreMarks
import EntangledMPI.Mpi.JobListShrink
import EntangledMPI.Mpi.LeftoverStatus
import EntangledMPI.Mpi.LoopDecisions
import EntangledMPI.Mpi.MapChecks
import EntangledMPI.Mpi.MapFile
import EntangledMPI.Mpi.MapReading
import EntangledMPI.Mpi.MapText
import EntangledMPI.Mpi.MigrationComm
import EntangledMPI.Mpi.OneHistory
import EntangledMPI.Mpi.OneReplica
import EntangledMPI.Mpi.ParsedShrinks
import EntangledMPI.Mpi.PendingReceives
import EntangledMPI.Mpi.PointToPoint
import EntangledMPI.Mpi.PostedReceives
import EntangledMPI.Mpi.ReceiveRetries
import EntangledMPI.Mpi.ReceiveStatus
import EntangledMPI.Mpi.RecvbufFrame
import EntangledMPI.Mpi.Reduce
import EntangledMPI.Mpi.ReplicatedRuns
import EntangledMPI.Mpi.Sections
import EntangledMPI.Mpi.StatusCalls
import EntangledMPI.Mpi.StatusIgnored
import EntangledMPI.Mpi.TransferStatus
import EntangledMPI.Mpi.Ulfm
import EntangledMPI.Mpi.WaitAfterShrink
import EntangledMPI.Replication.HeapCount
import EntangledMPI.Replication.HeapFrees
import EntangledMPI.Replication.HeapList
import EntangledMPI.Replication.HeapReplica
import EntangledMPI.Replication.HeapSeg
import EntangledMPI.Replication.HeapTransfer
import EntangledMPI.Replication.InitRep
import EntangledMPI.Replication.ReplicaPointers
import EntangledMPI.Replication.WorldCalls
import EntangledMPI.Shared
import EntangledMPI.System.Execution
import EntangledMPI.System.FaultInjection
import EntangledMPI.System.JobKnown
import EntangledMPI.System.MapSound
import EntangledMPI.System.Migration
import EntangledMPI.System.Polls
import EntangledMPI.System.RecordFiles
import EntangledMPI.System.Reloads
import EntangledMPI.System.Steps
