import WaitGc.Lib.Outcome
import WaitGc.Lib.Radix
import WaitGc.Lib.Tally
import WaitGc.Lib.Traverse
import WaitGc.Lib.Ring
import WaitGc.Lib.Chain
import WaitGc.Lib.Ledger
import WaitGc.Lib.Extent
import WaitGc.Lib.Coarsen
import WaitGc.Lib.Isotonic
import WaitGc.Lib.Segments
import WaitGc.Lib.Drain
import WaitGc.Lib.Heap
import WaitGc.Lib.Best
import WaitGc.Lib.Flash
import WaitGc.Lib.Copies
import WaitGc.Lib.Deferred
import WaitGc.Lib.Pattern
import WaitGc.Lib.Preprocessor
import WaitGc.Basic
import WaitGc.Geometry
import WaitGc.Pqueue
import WaitGc.Timing
import WaitGc.Ftl.State
import WaitGc.Ftl.Lines
import WaitGc.Ftl.Victim
import WaitGc.Ftl.Gc
import WaitGc.Ftl.Commands
import WaitGc.Ftl.ReadLog
import WaitGc.Ftl.Device
import WaitGc.Io.Dispatcher
import WaitGc.Io.Worker
import WaitGc.Io.Completion
import WaitGc.Io.Pool
import WaitGc.Io.Copy
import WaitGc.Io.IoUnits
import WaitGc.Io.Admin
import WaitGc.Io.CqDoorbell
import WaitGc.Io.Bars
import WaitGc.Io.Dma
import WaitGc.Io.Interrupts
import WaitGc.Io.IoPath
import WaitGc.Io.Threads
import WaitGc.Io.WorkerLoop
import WaitGc.Zns.State
import WaitGc.Zns.Write
import WaitGc.Zns.Mgmt
import WaitGc.Zns.Namespace
import WaitGc.Zns.Device
import WaitGc.Zns.Serve
import WaitGc.Zns.MgmtRecv
import WaitGc.Kv.Index
import WaitGc.Kv.Store
import WaitGc.Kv.Alloc
import WaitGc.Kv.Batch
import WaitGc.Kv.Iter
import WaitGc.Fit.Isotonic
import WaitGc.Fit.Header
import WaitGc.Fit.Choose
import WaitGc.Fit.Extract
import WaitGc.Fit.HeaderText
import WaitGc.Proof.Pqueue
import WaitGc.Proof.Pages
import WaitGc.Proof.WritePointer
import WaitGc.Proof.Devices
import WaitGc.Proof.WorkQueue
import WaitGc.Proof.Zones
import WaitGc.Proof.ZoneStore
import WaitGc.Proof.ZoneWrites
import WaitGc.Proof.ZoneData
import WaitGc.Proof.Fit
import WaitGc.Proof.Groups
import WaitGc.Proof.Samples
import WaitGc.Proof.Channel
import WaitGc.Proof.Nand
import WaitGc.Proof.PqueueOrder
import WaitGc.Proof.Shelves
import WaitGc.Proof.Phys
import WaitGc.Proof.Mapping
import WaitGc.Proof.Frame
import WaitGc.Proof.Write
import WaitGc.Proof.Victim
import WaitGc.Proof.GcFrame
import WaitGc.Proof.GcOrder
import WaitGc.Proof.Gc
import WaitGc.Proof.Device
import WaitGc.Proof.Moves
import WaitGc.Proof.Room
import WaitGc.Proof.System
import WaitGc.Proof.ZoneDevices
import WaitGc.Proof.Occupancy
import WaitGc.Proof.Stands
import WaitGc.Proof.FlashCells
import WaitGc.Proof.KvIndex
import WaitGc.Proof.KvLog
import WaitGc.Proof.KvStores
import WaitGc.Proof.Pool
import WaitGc.Proof.Records
import WaitGc.Proof.Threads
import WaitGc.Proof.ZoneFootprint
import WaitGc.Proof.ZrwaSpace
import WaitGc.Proof.ThreadSteps
import WaitGc.Proof.ThreadRuns
import WaitGc.Proof.Undisturbed
import WaitGc.Theorems.Mapping
import WaitGc.Theorems.Lines
import WaitGc.Theorems.Counters
import WaitGc.Theorems.Address
import WaitGc.Theorems.Dispatch
import WaitGc.Theorems.WorkQueue
import WaitGc.Theorems.Completion
import WaitGc.Theorems.NoLoss
import WaitGc.Theorems.ZoneResources
import WaitGc.Theorems.SequentialWrites
import WaitGc.Theorems.RefusedWrites
import WaitGc.Theorems.RejectedWrites
import WaitGc.Theorems.RetriedAppends
import WaitGc.Theorems.LbaRange
import WaitGc.Theorems.FlushBarrier
import WaitGc.Theorems.Bandwidth
import WaitGc.Theorems.DieTiming
import WaitGc.Theorems.IsotonicFit
import WaitGc.Theorems.ZrwaResources
import WaitGc.Theorems.KvMap
import WaitGc.Theorems.KvAliases
import WaitGc.Theorems.KvValues
import WaitGc.Theorems.ZoneManagement
import WaitGc.Theorems.VictimScore
import WaitGc.Theorems.PavaFit
import WaitGc.Theorems.ReducedFit
import WaitGc.Theorems.ReadAggregation
import WaitGc.Theorems.WriteCredits
import WaitGc.Theorems.Deallocate
import WaitGc.Theorems.AdminQueue
import WaitGc.Theorems.GreedyVictim
import WaitGc.Theorems.AgeClock
import WaitGc.Theorems.CandidateCounts
import WaitGc.Theorems.Collection
import WaitGc.Theorems.WriteBuffer
import WaitGc.Theorems.ZoneNumbers
import WaitGc.Theorems.ZoneReports
import WaitGc.Theorems.ZoneDivisions
import WaitGc.Theorems.ZoneIndices
import WaitGc.Theorems.CqDoorbell
import WaitGc.Theorems.ExpiredSlots
import WaitGc.Theorems.BatchPayload
import WaitGc.Theorems.BatchedStores
import WaitGc.Theorems.DmaCopies
import WaitGc.Theorems.ZrwaBuffers
import WaitGc.Theorems.HashChains
import WaitGc.Theorems.Allocators
import WaitGc.Theorems.IteratorHandles
import WaitGc.Theorems.IteratorReads
import WaitGc.Theorems.LineWalk
import WaitGc.Theorems.CostBenefitVictim
import WaitGc.Theorems.ZoneBuffers
import WaitGc.Theorems.PageWrites
import WaitGc.Theorems.FreeLines
import WaitGc.Theorems.WriteAmplification
import WaitGc.Theorems.Policies
import WaitGc.Theorems.LogicalPages
import WaitGc.Theorems.PriorityQueue
import WaitGc.Theorems.Bars
import WaitGc.Theorems.ChooseFit
import WaitGc.Theorems.SampleLog
import WaitGc.Theorems.HeaderText
import WaitGc.Theorems.Training
import WaitGc.Theorems.WorkerProgress
import WaitGc.Theorems.IoPath
import WaitGc.Theorems.Interrupts
import WaitGc.Theorems.FlashHistory
