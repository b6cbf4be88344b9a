import CrossMachine.Lib.Run
import CrossMachine.Lib.Majority
import CrossMachine.Lib.Prefix
import CrossMachine.Lib.Sum
import CrossMachine.Common.Ranks
import CrossMachine.Raft.Node
import CrossMachine.Raft.Handlers
import CrossMachine.Raft.Cluster
import CrossMachine.Raft.World
import CrossMachine.Raft.Election
import CrossMachine.Raft.Logs
import CrossMachine.Raft.Acks
import CrossMachine.Raft.Completeness
import CrossMachine.Raft.Commit
import CrossMachine.Raft.Regions
import CrossMachine.Raft.Simulation
import CrossMachine.Raft.Safety
import CrossMachine.Raft.Delivery
import CrossMachine.Raft.Ballot
import CrossMachine.Raft.Tla
import CrossMachine.Raft.Mapping
import CrossMachine.Raft.Refinement
import CrossMachine.Snapshot.Node
import CrossMachine.Snapshot.Markers
import CrossMachine.Snapshot.Cut
import CrossMachine.Snapshot.Rounds
import CrossMachine.Lib.Confluence
import CrossMachine.Lib.Network
import CrossMachine.Collectives.Exchange
import CrossMachine.Collectives.Ring
import CrossMachine.Collectives.Halving
import CrossMachine.Collectives.Tree
import CrossMachine.Lib.Grace
import CrossMachine.Reclaim.Rcu
import CrossMachine.Reclaim.Epoch
import CrossMachine.Lib.Custody
import CrossMachine.Reclaim.Hazard
import CrossMachine.Reclaim.Guards
import CrossMachine.Lib.Linearizable
import CrossMachine.Lib.Ledger
import CrossMachine.Queue.MsQueue
import CrossMachine.Queue.Chain
import CrossMachine.Queue.Steps
import CrossMachine.Queue.Program
import CrossMachine.Queue.Linear
import CrossMachine.Queue.Mpmc
import CrossMachine.Deque.ChaseLev
import CrossMachine.Pool.WorkStealing
import CrossMachine.Alloc.FreeList
import CrossMachine.Coro.Mutex
import CrossMachine.Compiler.Ir
import CrossMachine.Compiler.MemPlanning
import CrossMachine.Compiler.Plan
import CrossMachine.Compiler.Eval
import CrossMachine.Compiler.Remat
import CrossMachine.Compiler.Pipeline
import CrossMachine.Compiler.Edits
import CrossMachine.Compiler.Fusion
import CrossMachine.Compiler.Regions
import CrossMachine.Compiler.Chain
import CrossMachine.Compiler.FusionSound
import CrossMachine.Compiler.FusionLoop
import CrossMachine.Compiler.Shape
import CrossMachine.Compiler.ShapeSound
import CrossMachine.Lib.Table
import CrossMachine.Serving.PagedKv
import CrossMachine.Compiler.KernelSpec
import CrossMachine.Serving.SpecDecode
import CrossMachine.Compiler.Placement
import CrossMachine.DataLoading.Shard
import CrossMachine.DataLoading.Loader
import CrossMachine.Training.Pipeline
import CrossMachine.Training.Timetable
import CrossMachine.Collectives.Gather
import CrossMachine.Training.Adam
import CrossMachine.Training.Zero
import CrossMachine.Training.ZeroEquiv
import CrossMachine.Lib.Pairwise
import CrossMachine.Training.Moe
import CrossMachine.Training.MoeProof
import CrossMachine.Clocks.VectorClock
import CrossMachine.Flow.Credit
import CrossMachine.Lib.Drain
import CrossMachine.Lib.ReverseMode
import CrossMachine.Raft.Progress
import CrossMachine.Tenancy.FairScheduler
import CrossMachine.Training.Autograd
import CrossMachine.Training.Backward
import CrossMachine.Alloc.Arena
import CrossMachine.Lib.Strided
import CrossMachine.Tensor.Handle
import CrossMachine.Tensor.Views
import CrossMachine.Knn.BallTree
import CrossMachine.Knn.KdTree
import CrossMachine.Rag.Hnsw
import CrossMachine.Rag.HnswProof
import CrossMachine.Collectives.Layout
import CrossMachine.Compiler.AffineLower
import CrossMachine.Compiler.Peak
import CrossMachine.Compiler.ShapeBudget
import CrossMachine.Coro.AwaitableEvent
import CrossMachine.Pool.Nested
import CrossMachine.Pool.TaskGroup
import CrossMachine.Queue.Reports
import CrossMachine.Queue.Spsc
import CrossMachine.Serving.SlaScheduler
import CrossMachine.DataLoading.Corruption
import CrossMachine.DataLoading.Shutdown
import CrossMachine.DataLoading.Ustar
import CrossMachine.Lib.Implements
import CrossMachine.Lib.Resweep
import CrossMachine.Lib.Words
import CrossMachine.Serving.SlaUrgency
import CrossMachine.Tenancy.Fairness
import CrossMachine.Training.Accumulation
import CrossMachine.Training.Checkpoint
import CrossMachine.Training.Overlap
import CrossMachine.Training.PeakInFlight
import CrossMachine.Alloc.ArenaWords
import CrossMachine.Lib.Intercalate
import CrossMachine.Lib.Json
import CrossMachine.Lib.Utf8
import CrossMachine.Lib.Warshall
import CrossMachine.Observability.Export
import CrossMachine.Observability.SpanJson
import CrossMachine.Rag.ChunkBound
import CrossMachine.Rag.Exhaustive
import CrossMachine.Rag.Reach
import CrossMachine.Sparsity.RoundTrip
import CrossMachine.Storage.Qos
import CrossMachine.Tensor.Wrapped
import CrossMachine.Topology.Cost
import CrossMachine.Topology.Place
import CrossMachine.Lib.Quadratic
import CrossMachine.Lib.Reader
import CrossMachine.Ml.DecisionTree
import CrossMachine.Ml.Growth
import CrossMachine.Raft.Codec
import CrossMachine.Serving.Gptq
import CrossMachine.Serving.GptqBound
import CrossMachine.Serving.GptqDiagonal
import CrossMachine.Serving.GptqOptimal
import CrossMachine.Stablehlo.LowerReduce
import CrossMachine.Training.Clipping
import CrossMachine.Training.TensorParallel
import CrossMachine.Cpu.NtStore
import CrossMachine.Cpu.Tiling
import CrossMachine.Fpga.Dma
import CrossMachine.Lib.Best
import CrossMachine.Lib.Descent
import CrossMachine.Lib.Gini
import CrossMachine.Lib.Lines
import CrossMachine.Lib.Preorder
import CrossMachine.Ml.Greedy
import CrossMachine.Ml.Hyperband
import CrossMachine.Ml.Promotion
import CrossMachine.Proptest.Check
import CrossMachine.Training.ProcessGrid
import CrossMachine.Common.TcpChannel
import CrossMachine.Collectives.OverTcp
import CrossMachine.Collectives.RingSpec
import CrossMachine.Common.Handshake
import CrossMachine.Lib.Height
import CrossMachine.Clocks.LamportClock
import CrossMachine.Flow.TokenBucket
