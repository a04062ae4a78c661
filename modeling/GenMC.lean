import GenMC.Library.ChainDFS
import GenMC.Execution.SymmetryChecker
import GenMC.Execution.Accesses
import GenMC.Verification.ThreadCreation
import GenMC.Verification.Scheduler
import GenMC.Support.ThreadPool
import GenMC.Runtime.RwLock
import GenMC.ADT.ViewOrder
import GenMC.Execution.Allocation
import GenMC.Relinche.LinearizabilityChecker
import GenMC.Relinche.Serialization
import GenMC.Relinche.Normalization
import GenMC.Passes.PhiPropagation
import GenMC.Verification.Revisits
import GenMC.Execution.ContextBoundExact
import GenMC.Verification.LabelCache
import GenMC.Execution.AccessSummary
import GenMC.ADT.CanonicalMap
import GenMC.ADT.AdaptiveJoin
import GenMC.Execution.DeferredUpdate
import GenMC.Execution.Reconstruction
import GenMC.Execution.HazardPointers
import GenMC.Support.RMWOps
import GenMC.Support.SExprSemantics
import GenMC.Execution.ScopedLabel
import GenMC.Execution.StampCut
import GenMC.Execution.DepExecutionGraph
import GenMC.Execution.RoundBoundDecider
import GenMC.ADT.DepView
import GenMC.ADT.TrieMap
import GenMC.Relinche.Interchange
import GenMC.Relinche.Construction
import GenMC.Relinche.CheckHint
import GenMC.Relinche.Reading
import GenMC.ADT.TopoSort
import GenMC.Verification.Barrier
import GenMC.Verification.StateReconstruction
import GenMC.Verification.ThreadJoin
import GenMC.Passes.PromoteMemIntrinsicPass
import GenMC.Passes.EscapeChecker
import GenMC.Passes.MDataCollectionPass
import GenMC.ADT.IList
import GenMC.Execution.LockMatching
import GenMC.Relinche.MissingEdges
import GenMC.Relinche.CallNumbers
import GenMC.Execution.StaticRanges
import GenMC.ADT.AdjListGrowth
import GenMC.Passes.BisimilarityCheckerPass
import GenMC.Consistency.Coherence
import GenMC.Consistency.ViewedRuns
