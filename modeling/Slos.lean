import Slos.DemandPaging
import Slos.HeapRegions
import Slos.RunQueueOrder
import Slos.TimerDue
import Slos.TimerOrder
import Slos.IrqReturn
import Slos.DataAbort
import Slos.PageMap
import Slos.FrameLaws
import Slos.SafeTick
import Slos.Leftmost
import Slos.WaitQueueLinks
import Slos.SpinLock
import Slos.Mailbox
import Slos.SlfsRecovery
import Slos.SlfsGarbage
import Slos.SlfsVersions
import Slos.FileSystem
import Slos.WorkQueue
import Slos.WorkerWakeup
import Slos.YieldChain
import Slos.RamdiskImage
import Slos.Loader
import Slos.SlfsDelete
import Slos.SlfsLayout
import Slos.SlfsDeletion
import Slos.SlfsAtomic
import Slos.Sleepers
import Slos.SlfsMount
import Slos.TimerDeadline
import Slos.OneshotRing
import Slos.HeapBounds
import Slos.Itab
import Slos.ReadMaster
import Slos.OdevSeq
import Slos.OdevCtrl
import Slos.ConsumerStop
import Slos.ModcoreFetch
import Slos.ModcoreDma
import Slos.LoadImage
import Slos.QueueMembers
import Slos.HandlerLocks
import Slos.RunQueueNormal
import Slos.TaskStacks
import Slos.CreateTask
import Slos.DmaFlush
import Slos.RamdiskOps
import Slos.SlfsRead
import Slos.SlfsHandle
import Slos.SlfsListing
import Slos.SlfsFirstVersions
import Slos.DeadlineMisses
import Slos.CString
import Slos.RegionList
import Slos.Durations
import Slos.SysWrite
import Slos.AppNames
import Slos.SlfsErase
import Slos.RbWalk
import Slos.KernelSerial
import Slos.CfsFairness
