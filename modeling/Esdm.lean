import Esdm.Lib.Odometer
import Esdm.Lib.Json
import Esdm.Lib.Radix
import Esdm.Lib.Strided
import Esdm.Lib.Client
import Esdm.Lib.Machine
import Esdm.Lib.BTree
import Esdm.Lib.Cover
import Esdm.Lib.Heap
import Esdm.Lib.FileSystem
import Esdm.Lib.Regroup
import Esdm.Lib.Uniform
import Esdm.Lib.Paint
import Esdm.Status
import Esdm.Hypercube
import Esdm.MinimalSubset
import Esdm.Dataspace
import Esdm.Copy
import Esdm.Split
import Esdm.Config
import Esdm.Fragment
import Esdm.Grid
import Esdm.Coverage
import Esdm.GridIterator
import Esdm.Scheduler
import Esdm.ReadTasks
import Esdm.GridIo
import Esdm.Metadata
import Esdm.GridJson
import Esdm.Mpi
import Esdm.System
import Esdm.Description
import Esdm.DimNames
import Esdm.Container
import Esdm.Posix
import Esdm.Stream
import Esdm.Session
import Esdm.Handles
import Esdm.Kdsa
import Esdm.BoundList
import Esdm.Hash
import Esdm.NeighbourManager
import Esdm.Requests
import Esdm.Tracking
import Esdm.Identifier
import Esdm.Proofs.Hypercube
import Esdm.Proofs.Touches
import Esdm.Proofs.MinimalSubset
import Esdm.Proofs.Table
import Esdm.Proofs.Absorb
import Esdm.Proofs.Forest
import Esdm.Proofs.Fragment
import Esdm.Proofs.Split
import Esdm.Proofs.Dataspace
import Esdm.Proofs.Partition
import Esdm.Proofs.Stream
import Esdm.Proofs.Copy
import Esdm.Proofs.DirectIo
import Esdm.Proofs.Io
import Esdm.Proofs.WriteStream
import Esdm.Proofs.GridState
import Esdm.Proofs.Steps
import Esdm.Proofs.Invariants
import Esdm.Proofs.Faults
import Esdm.Proofs.Accounting
import Esdm.Proofs.Axis
import Esdm.Proofs.Subdivide
import Esdm.Proofs.Cells
import Esdm.Proofs.Geometry
import Esdm.Proofs.Hierarchy
import Esdm.Proofs.RegionQuery
import Esdm.Proofs.GridIterator
import Esdm.Proofs.Iterable
import Esdm.Proofs.Coverage
import Esdm.Proofs.Reads
import Esdm.Proofs.Stored
import Esdm.Proofs.Buffers
import Esdm.Proofs.Metadata
import Esdm.Proofs.GridJson
import Esdm.Proofs.Decode
import Esdm.Proofs.RoundTrip
import Esdm.Proofs.GridMerge
import Esdm.Proofs.MpiCommit
import Esdm.Proofs.DimNames
import Esdm.Proofs.Container
import Esdm.Proofs.Posix
import Esdm.Proofs.Kdsa
import Esdm.Proofs.KdsaFormat
import Esdm.Proofs.KdsaSearch
import Esdm.Proofs.KdsaRelease
import Esdm.Proofs.Hash
import Esdm.Proofs.BoundList
import Esdm.Proofs.BoundTree
import Esdm.Proofs.BalancedTree
import Esdm.Proofs.NeighbourManager
import Esdm.Proofs.Requests
import Esdm.Proofs.ReadTasks
import Esdm.Proofs.ActualSize
import Esdm.Proofs.Tidy
import Esdm.Proofs.Handles
import Esdm.Proofs.Moves
import Esdm.Proofs.Reopen
import Esdm.Proofs.Tracking
import Esdm.Proofs.Identifier
import Esdm.LogicalArray
import Esdm.Proofs.Contents
import Esdm.Proofs.LogicalArray
import Esdm.Lib.Keyed
import Esdm.Proofs.Gathered
import Esdm.Proofs.ReadSchedule
