import CircuitMapping.Pipeline.Basic
import CircuitMapping.Device.Topology
import CircuitMapping.Proofs.Device.Paths
import CircuitMapping.Proofs.Highest
import CircuitMapping.Proofs.Layout.Exchanges
import CircuitMapping.Proofs.Circuit.Register
import CircuitMapping.Proofs.Routing.Chains
import CircuitMapping.Proofs.Gate.Kinds
import CircuitMapping.Proofs.Routing.Blocks
import CircuitMapping.Proofs.Routing.Replay
import CircuitMapping.Proofs.Device.Extent
import CircuitMapping.Proofs.Placement.Requests
import CircuitMapping.Proofs.Circuit.Levels
import CircuitMapping.Proofs.Routing.OnDevice
import CircuitMapping.Proofs.Timing.Layers
import CircuitMapping.Proofs.Timing.Timeline
import CircuitMapping.Proofs.Circuit.Meaning
import CircuitMapping.Proofs.Routing.Agreement
import CircuitMapping.Proofs.Pipeline.EndToEnd
import CircuitMapping.Proofs.Device.Components
import CircuitMapping.Proofs.Routing.Course
import CircuitMapping.Proofs.Routing.Feasibility
import CircuitMapping.Proofs.Routing.Restored
import CircuitMapping.Proofs.Timing.Makespan
import CircuitMapping.Proofs.Timing.Words
import CircuitMapping.Proofs.Pipeline.Attempts
import CircuitMapping.Proofs.Routing.Cutoff
import CircuitMapping.Proofs.Routing.RoundTrips
import CircuitMapping.Proofs.Pipeline.Repeats
import CircuitMapping.Proofs.Placement.Search
import CircuitMapping.Proofs.Pipeline.MoreAttempts
import CircuitMapping.Proofs.Circuit.Depth
import CircuitMapping.Proofs.Circuit.Orders
import CircuitMapping.Proofs.Timing.Orders
import CircuitMapping.Proofs.Circuit.Reversal
import CircuitMapping.Proofs.Timing.Sequence
import CircuitMapping.Proofs.Timing.Policies
import CircuitMapping.Proofs.Pipeline.Reports
import CircuitMapping.Proofs.Device.ShortestPaths
import CircuitMapping.Proofs.Routing.LeastSwaps
import CircuitMapping.Proofs.Routing.InPlace
import CircuitMapping.Proofs.Device.LowestPaths
import CircuitMapping.Proofs.Device.Queue
import CircuitMapping.Proofs.Device.Topologies
import CircuitMapping.Proofs.Device.UniquePaths
import CircuitMapping.Proofs.Routing.Undrawn
import CircuitMapping.Proofs.Routing.Depths
import CircuitMapping.Proofs.Circuit.LongestChains
import CircuitMapping.Proofs.Placement.Validation
import CircuitMapping.Proofs.Timing.Untimed
import CircuitMapping.Proofs.Timing.Clock
import CircuitMapping.Proofs.Timing.Work
import CircuitMapping.Proofs.Placement.Simulation
import CircuitMapping.Proofs.Placement.LiveTables
import CircuitMapping.Proofs.Placement.Trials
import CircuitMapping.Proofs.Placement.Unmoved
import CircuitMapping.Proofs.Device.EdgeLists
import CircuitMapping.Proofs.Device.Adjacency
import CircuitMapping.Proofs.Routing.Descriptions
import CircuitMapping.Proofs.Device.Matrix
import CircuitMapping.Proofs.Device.Grid
import CircuitMapping.Proofs.Device.Shapes
import CircuitMapping.Proofs.Routing.SwapChains
import CircuitMapping.Proofs.Layout.Bijection
import CircuitMapping.Proofs.Layout.Transpositions
import CircuitMapping.Proofs.Circuit.Links
import CircuitMapping.Proofs.Timing.LateLevels
import CircuitMapping.Proofs.Circuit.Counted
import CircuitMapping.Proofs.Pipeline.Session
