import Libcando.Transition
import Libcando.Continuation
import Libcando.ByteMemory
import Libcando.Tiling
import Libcando.CStrings
import Libcando.Log
import Libcando.ErrorText
import Libcando.Baton
import Libcando.Futex
import Libcando.FutexSystem
import Libcando.MutualExclusion
import Libcando.ForcedUnlock
import Libcando.FutexSleepers
import Libcando.FutexProgress
import Libcando.ShmLayout
import Libcando.ShmPlacement
import Libcando.ShmTransfer
import Libcando.TransferOutcome
import Libcando.TransferFrame
import Libcando.TransferMotion
import Libcando.HandOff
import Libcando.HandOffProgress
import Libcando.MessageWipe
import Libcando.ShmWorld
import Libcando.ShmWorldStep
import Libcando.ShmContexts
import Libcando.ShmSane
import Libcando.ShmCounting
import Libcando.AttachCount
import Libcando.ShmIndices
import Libcando.NameAgreement
import Libcando.ShmSegments
import Libcando.ShmHanding
import Libcando.AttachHandOff
import Libcando.Mm
import Libcando.ArenaBlocks
import Libcando.ArenaSizes
import Libcando.ArenaFree
import Libcando.ArenaRanges
import Libcando.JobPoolLayout
import Libcando.JobPoolPlacement
import Libcando.JobPool
import Libcando.Dealing
import Libcando.JobDealing
import Libcando.JobSlotBounds
import Libcando.JobPoolCreate
import Libcando.JobSlots
import Libcando.JobQueue
import Libcando.JobWorker
import Libcando.JobProducer
import Libcando.JobRounds
import Libcando.JobPoolRuns
import Libcando.JobOrder
import Libcando.JobBarrier
import Libcando.Syscall
import Libcando.SocketResults
import Libcando.LostWakeUp
import Libcando.QueueReset
import Libcando.Relay
import Libcando.Ledger
import Libcando.LogRecords
import Libcando.ZeroCopy
import Libcando.DescriptorTable
import Libcando.FileOps
import Libcando.FileTree
import Libcando.PathWalk
import Libcando.Mkdir
import Libcando.RemoveDir
import Libcando.RemoveConfined
import Libcando.RemoveWhole
import Libcando.Pieces
import Libcando.FileLines
import Libcando.PathBuffer
import Libcando.MakeDirs
import Libcando.FileMapping
import Libcando.UnixSockets
import Libcando.SockUdp
import Libcando.UdpAccounts
import Libcando.UdpPeers
import Libcando.UdpDestination
import Libcando.FailedCreates
import Libcando.SocketLife
import Libcando.FileStore
import Libcando.ArenaContents
import Libcando.JobProgress
import Libcando.JobTeardown
import Libcando.DirRoundTrip
import Libcando.JobPoolStart
import Libcando.SocketFiles
import Libcando.JobShutdown
