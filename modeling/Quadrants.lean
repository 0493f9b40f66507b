import Quadrants.AdStack.CacheCoherence
import Quadrants.AdStack.CapacityExact
import Quadrants.AdStack.DeviceAgreement
import Quadrants.Algorithms.ParallelSortCorrect
import Quadrants.Algorithms.PrefixSumCorrect
import Quadrants.Algorithms.PrefixSumKernels
import Quadrants.Algorithms.RadixSortCorrect
import Quadrants.Algorithms.ReduceByKeyCorrect
import Quadrants.Analysis.LoopIndexDiff
import Quadrants.Analysis.UniqueVerdictSound
import Quadrants.Args.SlotsAgree
import Quadrants.AutoDiff.MakeDualCorrect
import Quadrants.CallPruning.FixpointEnds
import Quadrants.Cfg.AnalysesExact
import Quadrants.Cfg.SimplifyRuns
import Quadrants.FastCache.FunctionHasher
import Quadrants.FastCache.KeyInjective
import Quadrants.Folding.FloorDivision
import Quadrants.Folding.FoldCorrect
import Quadrants.Graph.DriverCorrect
import Quadrants.Library.ParallelLoop
import Quadrants.Library.StridedLoop
import Quadrants.LowerAst.LowerCorrect
import Quadrants.Memory.ChunkSafe
import Quadrants.Memory.CoalescedBlocks
import Quadrants.Memory.DynamicChains
import Quadrants.Memory.DynamicConsistent
import Quadrants.Memory.NodesDistinct
import Quadrants.Memory.ParallelGc
import Quadrants.Memory.UnifiedSound
import Quadrants.Offload.CpuRangeFor
import Quadrants.Offload.CrossTaskCorrect
import Quadrants.Offload.LevelsCorrect
import Quadrants.Quant.StoresApart
import Quadrants.SNode.AddressedIff
import Quadrants.SNode.StructForTasks
import Quadrants.Serialization.CorruptMetadata
import Quadrants.Simplify.LoopInvariantCorrect
import Quadrants.Simplify.PowLowerings
import Quadrants.Simplify.Reassociated
import Quadrants.Simplify.UnreachableCorrect
import Quadrants.Simt.BitonicSort
import Quadrants.Simt.FoldOrder
import Quadrants.Simt.RadixRankCorrect
import Quadrants.Template.StructNdarrays
import Quadrants.Simt.SegmentedReduce
import Quadrants.AutoDiff.IndependentBlocks
import Quadrants.AutoDiff.IndependentBlocksCover
import Quadrants.AutoDiff.ReverseSiblings
import Quadrants.AutoDiff.CrossIterationCheck
import Quadrants.AutoDiff.CrossIterationSound
import Quadrants.SNode.FlagAccess
import Quadrants.SNode.WeakWrites
import Quadrants.SNode.WeakWritesKept
import Quadrants.Analysis.GatherFuncStoreDests
import Quadrants.Frontend.Ndrange
import Quadrants.Frontend.PerfDispatch
import Quadrants.Library.BoundedSelection
import Quadrants.OfflineCache.CacheCleaner
import Quadrants.Analysis.DetectReadOnly
import Quadrants.Analysis.Clone
import Quadrants.SNode.MatrixPtr
import Quadrants.Analysis.StatementUsages
