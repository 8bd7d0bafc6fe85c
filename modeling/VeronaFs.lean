import VeronaFs.Boc.System
import VeronaFs.Boc.Replay
import VeronaFs.Boc.Part
import VeronaFs.Foundation.Pages
import VeronaFs.Foundation.StdMap
import VeronaFs.FileSystem.Attributes
import VeronaFs.FileSystem.Setattr
import VeronaFs.FileSystem.RegInode
import VeronaFs.FileSystem.WriteLoop
import VeronaFs.FileSystem.Content
import VeronaFs.FileSystem.InodeStep
import VeronaFs.FileSystem.Runs
import VeronaFs.FileSystem.WriteRuns
import VeronaFs.FileSystem.ReadParts
import VeronaFs.FileSystem.ReadRuns
import VeronaFs.FileSystem.ReadServed
import VeronaFs.FileSystem.Truncation
import VeronaFs.Namespace.State
import VeronaFs.Namespace.Requests
import VeronaFs.Namespace.Inodes
import VeronaFs.Namespace.Entries
import VeronaFs.Namespace.Rename
import VeronaFs.Namespace.RootAccess
import VeronaFs.Namespace.System
import VeronaFs.Namespace.Steps
import VeronaFs.Namespace.RenameSteps
import VeronaFs.Namespace.Termination
import VeronaFs.Namespace.Alone
import VeronaFs.Namespace.RenameAlone
import VeronaFs.Namespace.Permission
import VeronaFs.Namespace.Listing
import VeronaFs.Namespace.Files
import VeronaFs.Namespace.DistinctCowns
import VeronaFs.Namespace.Session
import VeronaFs.Namespace.RenameEffect
import VeronaFs.Namespace.Honest
import VeronaFs.FileSystem.Answers
import VeronaFs.FileSystem.Assignments
import VeronaFs.FileSystem.BlockSpace
import VeronaFs.FileSystem.Released
import VeronaFs.FileSystem.SparseReads
import VeronaFs.Namespace.RegularTable
import VeronaFs.Namespace.OwnedBuffers
import VeronaFs.Namespace.Answered
import VeronaFs.Namespace.AttributeRights
import VeronaFs.Namespace.StickyRename
import VeronaFs.Foundation.Adjacent
import VeronaFs.Foundation.Links
import VeronaFs.Foundation.Deque
import VeronaFs.Foundation.Calls
import VeronaFs.Foundation.BlockHeap
import VeronaFs.Foundation.BlockChain
import VeronaFs.Foundation.CellBlock
import VeronaFs.Foundation.CString
import VeronaFs.Foundation.Fitting
import VeronaFs.Foundation.StoreBuffer
import VeronaFs.Foundation.AgedQueue
import VeronaFs.Runtime.Shared
import VeronaFs.Runtime.SharedLifetime
import VeronaFs.Runtime.Stack
import VeronaFs.Runtime.StackRuns
import VeronaFs.Runtime.Notification
import VeronaFs.Runtime.Mpmcq
import VeronaFs.Runtime.MpmcqNothingOld
import VeronaFs.Runtime.ObjectMap
import VeronaFs.Runtime.ObjectMapSearch
import VeronaFs.Runtime.ObjectMapInsert
import VeronaFs.Runtime.ObjectMapRuns
import VeronaFs.Runtime.ObjectMapMarks
import VeronaFs.Runtime.ObjectMapValues
import VeronaFs.Runtime.RememberedSet
import VeronaFs.Runtime.RememberedSetPhase
import VeronaFs.Foundation.Trace
import VeronaFs.Runtime.Object
import VeronaFs.Runtime.RegionRc
import VeronaFs.Runtime.RegionRcMark
import VeronaFs.Runtime.RegionRcCycles
import VeronaFs.Runtime.RegionRcDrop
import VeronaFs.Runtime.RegionRcRelease
import VeronaFs.Runtime.RegionRcDeaths
import VeronaFs.Runtime.RegionRcOutside
import VeronaFs.Runtime.RegionRcOutsideRuns
import VeronaFs.Runtime.RegionRcHistory
import VeronaFs.Runtime.RegionTrace
import VeronaFs.Runtime.RegionTraceMark
import VeronaFs.Runtime.RegionTraceSweep
import VeronaFs.Runtime.RegionTraceGc
import VeronaFs.Runtime.RegionTraceRelease
import VeronaFs.Runtime.RegionTraceGrow
import VeronaFs.Runtime.RegionTraceSwap
import VeronaFs.Runtime.RegionTraceHeap
import VeronaFs.Foundation.Tiles
import VeronaFs.Runtime.RegionArena
import VeronaFs.Runtime.RegionArenaLayout
import VeronaFs.Runtime.RegionArenaIterator
import VeronaFs.Runtime.RegionArenaGrow
import VeronaFs.Runtime.RegionArenaSwap
import VeronaFs.Runtime.RegionArenaHeap
import VeronaFs.Runtime.ExternalRef
import VeronaFs.Runtime.ExternalRefRuns
import VeronaFs.Runtime.ExternalRefSweep
import VeronaFs.StackFs.NodeTable
import VeronaFs.StackFs.Buckets
import VeronaFs.StackFs.Table
import VeronaFs.StackFs.Operations
import VeronaFs.StackFs.Requests
import VeronaFs.StackFs.Lookups
import VeronaFs.StackFs.Duplicates
import VeronaFs.StackFs.Readdir
import VeronaFs.StackFs.FullPath
import VeronaFs.Runtime.Bag
import VeronaFs.Runtime.BagRuns
import VeronaFs.Runtime.BehaviourCore
import VeronaFs.Runtime.Protocol
import VeronaFs.Runtime.Consistency
import VeronaFs.Runtime.Refinement
import VeronaFs.Runtime.Exclusion
import VeronaFs.Runtime.Progress
import VeronaFs.Runtime.Cown
import VeronaFs.Runtime.CownCounts
import VeronaFs.Runtime.LocalEpoch
import VeronaFs.Runtime.LocalEpochRuns
import VeronaFs.Runtime.AsymmetricLock
import VeronaFs.Runtime.AsymmetricLockExclusion
import VeronaFs.Runtime.Promise
import VeronaFs.Runtime.PromiseRuns
import VeronaFs.Runtime.PromiseCallbacks
import VeronaFs.Runtime.Clock
import VeronaFs.Runtime.Epoch
import VeronaFs.Runtime.EpochClock
import VeronaFs.Runtime.EpochReclaim
import VeronaFs.Runtime.Work
import VeronaFs.Foundation.Feistel
import VeronaFs.Runtime.Scramble
import VeronaFs.Foundation.LinkChain
import VeronaFs.Runtime.Header
import VeronaFs.Runtime.SccUnion
import VeronaFs.Runtime.SccUnionRuns
import VeronaFs.Runtime.SccUnionBalance
import VeronaFs.Foundation.PathSearch
import VeronaFs.Runtime.HeaderOps
import VeronaFs.Runtime.LinkedObjectStack
import VeronaFs.Runtime.Freeze
import VeronaFs.Runtime.HeapComponents
import VeronaFs.Runtime.FreezeCollapse
import VeronaFs.Runtime.FreezeSearch
import VeronaFs.Foundation.Fragments
import VeronaFs.Runtime.FreezeSweep
import VeronaFs.Runtime.FreezeRegion
import VeronaFs.Foundation.Incoming
import VeronaFs.Runtime.FreezeForest
import VeronaFs.Runtime.FreezeGraph
import VeronaFs.Runtime.Immutable
import VeronaFs.Foundation.Ledger
import VeronaFs.Runtime.ImmutableComponent
import VeronaFs.Runtime.ImmutableFree
import VeronaFs.Runtime.ImmutableRelease
import VeronaFs.Runtime.ImmutableRuns
import VeronaFs.Runtime.FreezeImmutable
import VeronaFs.Runtime.ThreadSync
import VeronaFs.Runtime.ThreadSyncWaiters
import VeronaFs.Runtime.ThreadSyncRuns
import VeronaFs.Runtime.SchedulerList
