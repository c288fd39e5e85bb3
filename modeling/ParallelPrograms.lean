import ParallelPrograms.Concurrency.Machine
import ParallelPrograms.Concurrency.ThreadTable
import ParallelPrograms.Barrier.Centralized
import ParallelPrograms.Barrier.Episodes
import ParallelPrograms.Barrier.Interference
import ParallelPrograms.LinkedList.Ring
import ParallelPrograms.RcuList.Model
import ParallelPrograms.RcuList.Shape
import ParallelPrograms.RcuList.Insertion
import ParallelPrograms.RcuList.Deletion
import ParallelPrograms.RcuList.TailCalls
import ParallelPrograms.RcuList.Concurrent
import ParallelPrograms.RcuList.Sequential
import ParallelPrograms.ThreadRcu.Model
import ParallelPrograms.ThreadRcu.GracePeriod
import ParallelPrograms.ThreadRcu.ReaderFlags
import ParallelPrograms.ThreadRcu.UpdateSide
import ParallelPrograms.ThreadRcu.Registration
import ParallelPrograms.ThreadRcu.Clean
import ParallelPrograms.SeqLock.Model
import ParallelPrograms.SeqLock.Snapshot
import ParallelPrograms.SeqLock.Writers
import ParallelPrograms.SeqLock.OptimisticReader
import ParallelPrograms.SeqLock.Uncontended
import ParallelPrograms.HazardPointer.Model
import ParallelPrograms.HazardPointer.Protection
import ParallelPrograms.Sequence.Compaction
import ParallelPrograms.Sequence.Bisection
import ParallelPrograms.Sequence.Intervals
import ParallelPrograms.HazardPointer.RetireCall
import ParallelPrograms.HazardPointer.Ledger
import ParallelPrograms.HazardPointer.Refinement
import ParallelPrograms.HazardPointer.ScanCall
import ParallelPrograms.HazardPointer.Bounds
import ParallelPrograms.HazardPointer.ThreadIndex
import ParallelPrograms.LinkedList.Path
import ParallelPrograms.LockedRcu.Model
import ParallelPrograms.LockedRcu.Ownership
import ParallelPrograms.LockedRcu.Reclamation
import ParallelPrograms.LockedRcu.Ledger
import ParallelPrograms.LockedRcu.Reassignment
import ParallelPrograms.ClassicRcu.Model
import ParallelPrograms.ClassicRcu.Ledger
import ParallelPrograms.ClassicRcu.GracePeriod
import ParallelPrograms.ClassicRcu.Reclaim
import ParallelPrograms.ClassicRcu.Calls
import ParallelPrograms.ClassicRcu.Callbacks
import ParallelPrograms.ClassicRcu.Sequential
import ParallelPrograms.ScopedLock.Model
import ParallelPrograms.ScopedLock.Exclusion
import ParallelPrograms.ScopedLock.Contention
import ParallelPrograms.TransactionalMemory.Model
import ParallelPrograms.TransactionalMemory.Conflict
import ParallelPrograms.TransactionalMemory.Visibility
import ParallelPrograms.SkipList.Model
import ParallelPrograms.SkipList.Levels
import ParallelPrograms.SkipList.Search
import ParallelPrograms.SkipList.Update
import ParallelPrograms.SkipList.Invariant
import ParallelPrograms.SkipList.FiniteMap
import ParallelPrograms.SkipList.Duplicate
import ParallelPrograms.SkipList.Runs
import ParallelPrograms.SkipList.ErrorPaths
import ParallelPrograms.SkipList.Memory
import ParallelPrograms.ExtentList.Leaf
import ParallelPrograms.ExtentList.LeafSearch
import ParallelPrograms.ExtentList.LeafUpdate
import ParallelPrograms.LinkedList.Chain
import ParallelPrograms.LinkedList.Tower
import ParallelPrograms.ExtentList.Model
import ParallelPrograms.ExtentList.Operations
import ParallelPrograms.ExtentList.Levels
import ParallelPrograms.ExtentList.Links
import ParallelPrograms.ExtentList.Linked
import ParallelPrograms.ExtentList.Lookup
import ParallelPrograms.ExtentList.Delete
import ParallelPrograms.ExtentList.AddKey
import ParallelPrograms.ExtentList.Ownership
import ParallelPrograms.ExtentList.Cursors
import ParallelPrograms.ExtentList.InsertWalk
import ParallelPrograms.ExtentList.VerifyPath
import ParallelPrograms.ExtentList.InsertLevels
import ParallelPrograms.ExtentList.InsertSearch
import ParallelPrograms.ExtentList.Insert
import ParallelPrograms.ExtentList.Preload
import ParallelPrograms.Sequence.FirstFit
import ParallelPrograms.ExtentList.Hole
import ParallelPrograms.Refinement.Calls
import ParallelPrograms.Sequence.Ranges
import ParallelPrograms.ExtentList.Calls
import ParallelPrograms.ExtentList.ExtentSet
import ParallelPrograms.ExtentList.Refinement
import ParallelPrograms.ExtentList.Runs
import ParallelPrograms.ExtentList.Contents
import ParallelPrograms.ExtentList.Benchmark
import ParallelPrograms.ExtentList.Pop
