import Puma.Addresses
import Puma.AffinityItems
import Puma.AllocationOrder
import Puma.Append
import Puma.Autobalance
import Puma.Bag
import Puma.Balance
import Puma.Balancing
import Puma.Barrier
import Puma.Bitmask
import Puma.BitmaskLaws
import Puma.Calls
import Puma.Compact
import Puma.Counters
import Puma.CurrentThread
import Puma.Destroy
import Puma.DestroySet
import Puma.Domain
import Puma.EmptyList
import Puma.EvenBalance
import Puma.ExtraData
import Puma.FreeingPass
import Puma.GreatestElement
import Puma.GrowingPass
import Puma.Handles
import Puma.Heap
import Puma.Interleaving
import Puma.Isolation
import Puma.Joined
import Puma.Kernel
import Puma.KernelData
import Puma.KernelRuntimes
import Puma.Labels
import Puma.Layout
import Puma.LeastLoaded
import Puma.Lib.AlignedBlock
import Puma.Lib.DoublyLinked
import Puma.Lib.Refinement
import Puma.Lib.Simulation
import Puma.Lib.SlidingWindow
import Puma.Linked
import Puma.Locality
import Puma.MapReduce
import Puma.Node
import Puma.NodeCapacity
import Puma.NodeScan
import Puma.Nodemask
import Puma.NumaPages
import Puma.Packing
import Puma.Pass
import Puma.PoolKernels
import Puma.PoolLoop
import Puma.PoolRefinement
import Puma.PoolRounds
import Puma.Pumalloc
import Puma.Rebalance
import Puma.RunTimeWindow
import Puma.RunTimes
import Puma.Runs
import Puma.Set
import Puma.SetRefinement
import Puma.Settled
import Puma.StackSubscripts
import Puma.StaticData
import Puma.StaticRegions
import Puma.StaticVar
import Puma.Stores
import Puma.ThreadCount
import Puma.ThreadList
import Puma.ThreadPool
import Puma.ThreadRuns
import Puma.TimeWaited
import Puma.Transfer
import Puma.TransferLinked
import Puma.Uniform
import Puma.Visits
import Puma.WellFormed
