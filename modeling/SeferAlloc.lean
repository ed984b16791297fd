import SeferAlloc.LinearProbing
import SeferAlloc.SegmentLayout
import SeferAlloc.SegmentHash
import SeferAlloc.BitWord
import SeferAlloc.ActiveKindIndex
import SeferAlloc.SegmentTable
import SeferAlloc.SegmentTableInvariant
import SeferAlloc.SegmentTableRuns
import SeferAlloc.SegmentTableLookup
import SeferAlloc.Interleaving
import SeferAlloc.HeapRegistry
import SeferAlloc.HeapRegistryLeases
import SeferAlloc.HeapRegistryReuse
import SeferAlloc.SidecarBitmap
import SeferAlloc.SidecarExactlyOnce
import SeferAlloc.SegmentIngress
import SeferAlloc.SegmentIngressDelivery
import SeferAlloc.IntrusiveList
import SeferAlloc.SizeClasses
import SeferAlloc.SmallSegment
import SeferAlloc.SmallSegmentInvariant
import SeferAlloc.SmallSegmentOperations
import SeferAlloc.SmallHeap
import SeferAlloc.SmallHeapTraffic
import SeferAlloc.SmallHeapRuns
import SeferAlloc.RisingPath
import SeferAlloc.LargeReservation
import SeferAlloc.LinkedDeque
import SeferAlloc.SmallPool
import SeferAlloc.SmallPoolRuns
import SeferAlloc.CacheLedger
import SeferAlloc.LargeCache
import SeferAlloc.LargeCacheSlots
import SeferAlloc.LargeHeap
import SeferAlloc.LargeHeapInvariant
import SeferAlloc.LargeHeapOperations
import SeferAlloc.LargeHeapRuns
import SeferAlloc.LargeLiveBytes
import SeferAlloc.RefCounting
import SeferAlloc.RouteDirectory
import SeferAlloc.RouteDirectoryPins
import SeferAlloc.RouteDirectoryLinks
import SeferAlloc.RouteDirectoryThreads
import SeferAlloc.RouteDirectoryRuns
import SeferAlloc.RingBuffer
import SeferAlloc.Magazine
import SeferAlloc.DepotOverflow
import SeferAlloc.HeapCore
import SeferAlloc.DepotOverflowRings
import SeferAlloc.HeapCoreBlocks
import SeferAlloc.HeapCoreMoves
import SeferAlloc.SmallFreeGuard
import SeferAlloc.HeapCoreReloads
import SeferAlloc.HeapCoreOperations
import SeferAlloc.HeapCoreFrees
import SeferAlloc.HeapCoreRuns
import SeferAlloc.ClassFor
import SeferAlloc.OwnFreeLane
import SeferAlloc.OwnFreeRefinement
import SeferAlloc.Linearization
import SeferAlloc.StackLog
import SeferAlloc.TaggedIndex
import SeferAlloc.TaggedIndexStack
import SeferAlloc.TaggedIndexStackSteps
import SeferAlloc.TaggedIndexStackRuns
import SeferAlloc.TaggedIndexStackHeads
import SeferAlloc.SortedBlocks
import SeferAlloc.RouteShard
import SeferAlloc.RouteShardMap
import SeferAlloc.RouteShardRuns
import SeferAlloc.DepotOverflowRuns
import SeferAlloc.ClassLeavesRuns
import SeferAlloc.FreeSlotHint
import SeferAlloc.HeapRegistrySaturation
import SeferAlloc.ThreadBinding
import SeferAlloc.ThreadBindingRuns
import SeferAlloc.SegmentDirectory
import SeferAlloc.SegmentDirectoryRuns
import SeferAlloc.EpochRegion
import SeferAlloc.EpochRegionStages
import SeferAlloc.EpochRegionSteps
import SeferAlloc.EpochRegionRuns
import SeferAlloc.OncePtrCell
import SeferAlloc.Chunks
import SeferAlloc.PageTable
import SeferAlloc.LockFreeRegion
import SeferAlloc.LockFreeRegionRuns
import SeferAlloc.ClassTable
import SeferAlloc.ClassLookup
import SeferAlloc.CellCount
import SeferAlloc.TombstoneProbing
import SeferAlloc.ExactShard
import SeferAlloc.ExactShardRuns
import SeferAlloc.ExactShardThreads
import SeferAlloc.ShardedRegion
import SeferAlloc.ShardedRegionRuns
import SeferAlloc.DepotLanes
import SeferAlloc.NewtonInverse
import SeferAlloc.Divisibility
import SeferAlloc.ActiveKindRuns
import SeferAlloc.ByteText
import SeferAlloc.ProcStatus
import SeferAlloc.CpuMap
import SeferAlloc.LargeCacheLearning
import SeferAlloc.LargeCacheDecay
import SeferAlloc.ResourceLedger
import SeferAlloc.AlignedVmem
import SeferAlloc.AlignedVmemPaths
import SeferAlloc.AlignedVmemReserve
import SeferAlloc.LargeSelection
import SeferAlloc.LargeGeometry
import SeferAlloc.LargeAllocation
import SeferAlloc.LargeAllocationRuns
import SeferAlloc.OracleDrive
import SeferAlloc.OracleTrace
import SeferAlloc.OracleSteps
import SeferAlloc.OracleRuns
import SeferAlloc.OracleGuarantees
import SeferAlloc.ScanBackoff
import SeferAlloc.ScanBackoffSteps
import SeferAlloc.ScanBackoffRuns
import SeferAlloc.SaturationGateRuns
import SeferAlloc.Sweep
import SeferAlloc.MaintenanceDrain
import SeferAlloc.MaintenanceDrainSteps
import SeferAlloc.MaintenanceDrainRuns
import SeferAlloc.SmallBatch
import SeferAlloc.SmallBatchDrains
import SeferAlloc.SmallBatchCarves
import SeferAlloc.SmallBatchFlushes
import SeferAlloc.SmallBatchRuns
import SeferAlloc.SmallCore
import SeferAlloc.SmallCoreTraffic
import SeferAlloc.Lending
import SeferAlloc.SmallCoreInvariant
import SeferAlloc.SmallCoreLedger
import SeferAlloc.SmallCoreSteps
import SeferAlloc.SmallCoreFrees
import SeferAlloc.SmallCoreViews
import SeferAlloc.SmallCoreSearch
import SeferAlloc.SmallCoreAllocation
import SeferAlloc.SmallCoreMaintenance
import SeferAlloc.SmallCoreRuns
import SeferAlloc.FallbackHeap
import SeferAlloc.FallbackHeapSteps
import SeferAlloc.FallbackWorker
import SeferAlloc.FallbackHeapRuns
