import MaximalCliques.Algorithm.Basic
import MaximalCliques.Algorithm.Explore
import MaximalCliques.Algorithm.Name
import MaximalCliques.Basic
import MaximalCliques.Benchmark.Host
import MaximalCliques.Benchmark.Options
import MaximalCliques.Benchmark.Recording
import MaximalCliques.Benchmark.Row
import MaximalCliques.Benchmark.Run
import MaximalCliques.Benchmark.Table
import MaximalCliques.BinaryRecord
import MaximalCliques.Clique.Canonical
import MaximalCliques.Clique.SortedList
import MaximalCliques.Clique.Verification
import MaximalCliques.CommandLine.Arguments
import MaximalCliques.CommandLine.Enumerate
import MaximalCliques.CommandLine.FileStore
import MaximalCliques.CommandLine.FileTree
import MaximalCliques.CommandLine.OpenFile
import MaximalCliques.CommandLine.Outcome
import MaximalCliques.CommandLine.PathName
import MaximalCliques.CommandLine.Representation
import MaximalCliques.EdgeList
import MaximalCliques.EdgeList.Blank
import MaximalCliques.EdgeList.Line
import MaximalCliques.Error
import MaximalCliques.Graph
import MaximalCliques.Graph.Degeneracy
import MaximalCliques.Graph.Table
import MaximalCliques.Main
import MaximalCliques.Numeral
import MaximalCliques.Pool.Run
import MaximalCliques.Pool.State
import MaximalCliques.Random.Graph
import MaximalCliques.Random.Words
import MaximalCliques.Reporter
import MaximalCliques.Search.Frame
import MaximalCliques.Search.Pivot
import MaximalCliques.Search.Roots
import MaximalCliques.Search.Visit
import MaximalCliques.Statistics
import MaximalCliques.VertexSet
import MaximalCliques.VertexSet.Bitmap
import MaximalCliques.VertexSet.Chunk
import MaximalCliques.VertexSet.Dense
import MaximalCliques.VertexSet.Indexed
import MaximalCliques.Proofs.Algorithm.Names
import MaximalCliques.Proofs.Benchmark.Comparing
import MaximalCliques.Proofs.Benchmark.Recording
import MaximalCliques.Proofs.Benchmark.SavedFiles
import MaximalCliques.Proofs.Benchmark.Saving
import MaximalCliques.Proofs.BinaryRecord
import MaximalCliques.Proofs.BinaryRecord.Fields
import MaximalCliques.Proofs.Checks
import MaximalCliques.Proofs.Clique.CanonicalForm
import MaximalCliques.Proofs.Clique.CanonicalOrder
import MaximalCliques.Proofs.Clique.Catalogue
import MaximalCliques.Proofs.Clique.Containment
import MaximalCliques.Proofs.Clique.Diagnosis
import MaximalCliques.Proofs.Clique.SortedList
import MaximalCliques.Proofs.Clique.Verification
import MaximalCliques.Proofs.CommandLine.Enumerate
import MaximalCliques.Proofs.CommandLine.FileStore
import MaximalCliques.Proofs.CommandLine.Journal
import MaximalCliques.Proofs.EdgeList.Encoding
import MaximalCliques.Proofs.EdgeList.Writing
import MaximalCliques.Proofs.Statistics
import MaximalCliques.Proofs.Graph.Adjacency
import MaximalCliques.Proofs.Graph.Agreement
import MaximalCliques.Proofs.Graph.Assembly
import MaximalCliques.Proofs.Graph.BucketQueue
import MaximalCliques.Proofs.Graph.Building
import MaximalCliques.Proofs.Graph.DegeneracyOrder
import MaximalCliques.Proofs.Graph.Draining
import MaximalCliques.Proofs.Graph.Edges
import MaximalCliques.Proofs.Graph.Extension
import MaximalCliques.Proofs.Graph.Loading
import MaximalCliques.Proofs.Graph.QueueInvariant
import MaximalCliques.Proofs.Graph.Rebuilding
import MaximalCliques.Proofs.Graph.Reloading
import MaximalCliques.Proofs.Graph.Requests
import MaximalCliques.Proofs.Graph.Validation
import MaximalCliques.Proofs.Graph.Width
import MaximalCliques.Proofs.Numeral
import MaximalCliques.Proofs.Pool.Delivery
import MaximalCliques.Proofs.Pool.Interleaving
import MaximalCliques.Proofs.Pool.Moves
import MaximalCliques.Proofs.Pool.Progress
import MaximalCliques.Proofs.Pool.Schedules
import MaximalCliques.Proofs.Search.Algorithms
import MaximalCliques.Proofs.Search.AnyFrame
import MaximalCliques.Proofs.Search.Calls
import MaximalCliques.Proofs.Search.Decomposition
import MaximalCliques.Proofs.Search.Degeneracy
import MaximalCliques.Proofs.Search.Enumeration
import MaximalCliques.Proofs.Search.Exactness
import MaximalCliques.Proofs.Search.Parallel
import MaximalCliques.Proofs.Search.Plan
import MaximalCliques.Proofs.Search.Recursion
import MaximalCliques.Proofs.Search.Roots
import MaximalCliques.Proofs.Search.Sequential
import MaximalCliques.Proofs.VertexSet.FiniteSets
import MaximalCliques.Proofs.VertexSet.Program
import MaximalCliques.Proofs.VertexSet.Representations
import MaximalCliques.Proofs.Random.Drawing
import MaximalCliques.Proofs.Random.Edges
import MaximalCliques.Proofs.Random.Picking
import MaximalCliques.Proofs.Random.Renaming
import MaximalCliques.Proofs.Random.Uniformity
import MaximalCliques.Proofs.Search.AscendingOrder
import MaximalCliques.Proofs.EdgeList.Grammar
import MaximalCliques.Proofs.EdgeList.Reading
import MaximalCliques.Proofs.EdgeList.Meaning
import MaximalCliques.Proofs.EdgeList.Comments
