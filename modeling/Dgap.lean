import Dgap.Memory.Slice
import Dgap.Memory.Image
import Dgap.Memory.Chain
import Dgap.System.Reach
import Dgap.System.Locks
import Dgap.Adjacency.Multigraph
import Dgap.Graph.State
import Dgap.Graph.Rebalance
import Dgap.Graph.Insert
import Dgap.Graph.Load
import Dgap.Graph.Neighborhood
import Dgap.Layout.Holds
import Dgap.Layout.Shift
import Dgap.Layout.Positions
import Dgap.Layout.Invariant
import Dgap.Layout.Window
import Dgap.Layout.Relocate
import Dgap.Layout.Place
import Dgap.Layout.Resize
import Dgap.Layout.Insert
import Dgap.Layout.Safe
import Dgap.Layout.Compact
import Dgap.Layout.Load
import Dgap.Layout.Read
import Dgap.Layout.Run
import Dgap.Layout.Density
import Dgap.Memory.Access
import Dgap.Memory.Cell
import Dgap.Layout.ResizeBounds
import Dgap.Threads.Model
import Dgap.Threads.Data
import Dgap.Threads.Window
import Dgap.Threads.Protocol
import Dgap.Threads.Liveness
import Dgap.Build.MakeGraph
import Dgap.Build.Symmetric
import Dgap.Build.Loops
import Dgap.Parallel.PrefixSum
import Dgap.Parallel.QueueBuffer
import Dgap.Parallel.Scatter
import Dgap.Csr.Build
import Dgap.Memory.Unique
import Dgap.Preprocess.Split
import Dgap.Preprocess.Convert
import Dgap.Graph.Recovery
import Dgap.Crash.Durable
import Dgap.Crash.Scan
import Dgap.Crash.Recovered
import Dgap.Crash.LogScan
import Dgap.Crash.Reopen
import Dgap.Crash.Flag
import Dgap.Crash.Switch
import Dgap.System.Along
import Dgap.Memory.Undo
import Dgap.Crash.UndoLog
import Dgap.Crash.Accesses
import Dgap.Memory.Unrolled
import Dgap.Bal.State
import Dgap.Bal.Threads
import Dgap.Bal.Section
import Dgap.Bal.Owns
import Dgap.Bal.Invariant
import Dgap.Bal.Read
import Dgap.Bal.Adjacency
import Dgap.Bal.Loading
import Dgap.Bal.Offset
import Dgap.Bal.Reopen
import Dgap.Tree.Heap
import Dgap.Machine.Width
import Dgap.Machine.ForLoop
import Dgap.Layout.Subtree
import Dgap.Layout.ReadFrom
import Dgap.Adjacency.Paths
import Dgap.Bc.EdgeId
import Dgap.Bc.Bitmap
import Dgap.Bc.Search
import Dgap.Bc.Invariant
import Dgap.Bc.Queued
import Dgap.Bc.Working
import Dgap.Bc.Level
import Dgap.Bc.ShortestPaths
import Dgap.Layout.LogChains
import Dgap.Layout.Capacity
import Dgap.Layout.Room
import Dgap.Parallel.ForkJoin
import Dgap.Adjacency.Components
import Dgap.Adjacency.Worklist
import Dgap.Adjacency.Trees
import Dgap.Build.Built
import Dgap.Cc.ShiloachVishkin
import Dgap.Cc.Labels
import Dgap.Cc.Components
import Dgap.Cc.Verifier
import Dgap.Cc.Built
import Dgap.Bfs.DirectionOptimizing
import Dgap.Bfs.Tree
import Dgap.Bfs.Invariant
import Dgap.Bfs.Moves
import Dgap.Bfs.Keeps
import Dgap.Bfs.Collect
import Dgap.Bfs.Iterations
import Dgap.Bfs.Levels
import Dgap.Bfs.Ends
import Dgap.Bfs.Search
import Dgap.Bfs.Verifier
import Dgap.Bfs.Built
import Dgap.System.Linear
import Dgap.Build.Linearizable
