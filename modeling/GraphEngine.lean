import GraphEngine.Executor.EquivalentDataEdges
import GraphEngine.Executor.PriorityOrder
import GraphEngine.Executor.SequentialOrder
import GraphEngine.Executor.SwitchNotify
import GraphEngine.FastGraph.FastGraphEdges
import GraphEngine.FastGraph.GraphOutputs
import GraphEngine.FastGraph.QuickListRuns
import GraphEngine.Formats.FractalLossless
import GraphEngine.Formats.FractalZC04RoundTrip
import GraphEngine.Formats.FractalZGroupedExact
import GraphEngine.Fusion.BitmapSets
import GraphEngine.Fusion.ConnectionExact
import GraphEngine.HostKernels.BCast
import GraphEngine.Isolate.ComputeGraph
import GraphEngine.Isolate.ExecuteGraph
import GraphEngine.Memory.BinaryBlockMemAssigner
import GraphEngine.Memory.BorrowRefinement
import GraphEngine.Memory.DependencyAnalyzer
import GraphEngine.Memory.DeviceOrderRuns
import GraphEngine.Memory.GraphMemSplitter
import GraphEngine.Memory.NoLeak
import GraphEngine.Memory.StreamInEdges
import GraphEngine.Memory.StreamLimit
import GraphEngine.ModelFile.OmFileLoad
import GraphEngine.Nddma.CoreSplit
import GraphEngine.Nddma.ExecutionTokens
import GraphEngine.Nddma.HarnessBounds
import GraphEngine.Nddma.Round3Layouts
import GraphEngine.Nddma.Round5Recovery
import GraphEngine.Prefetch.EventOverflow
import GraphEngine.Sorting.Cycles
import GraphEngine.Streams.StreamMoves
