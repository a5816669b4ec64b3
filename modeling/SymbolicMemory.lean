import SymbolicMemory.Main
import SymbolicMemory.Workbench
import SymbolicMemory.Proofs.BitVector
import SymbolicMemory.Proofs.Meaning
import SymbolicMemory.Proofs.Slices
import SymbolicMemory.Proofs.Cutting
import SymbolicMemory.Proofs.Building
import SymbolicMemory.Proofs.Search
import SymbolicMemory.Proofs.Enumeration
import SymbolicMemory.Proofs.ByteMemory
import SymbolicMemory.Proofs.Attained
import SymbolicMemory.Proofs.Access
import SymbolicMemory.Proofs.Replay
import SymbolicMemory.Proofs.Exploration
import SymbolicMemory.Proofs.Values
import SymbolicMemory.Proofs.Concretization
import SymbolicMemory.Proofs.Inquiry
import SymbolicMemory.Proofs.Naming
import SymbolicMemory.Proofs.ExactLoad
import SymbolicMemory.Proofs.Feasibility
import SymbolicMemory.Proofs.Twins
import SymbolicMemory.Proofs.Abreast
import SymbolicMemory.Proofs.Isolation
import SymbolicMemory.Proofs.DistinctNames
import SymbolicMemory.Proofs.Evaluation
import SymbolicMemory.Proofs.Irreducible
import SymbolicMemory.Proofs.Construction
import SymbolicMemory.Proofs.Splitting
import SymbolicMemory.Proofs.PathConstraints
import SymbolicMemory.Proofs.Listing
import SymbolicMemory.Proofs.Extremes
import SymbolicMemory.Proofs.Rejoining
import SymbolicMemory.Proofs.RoundTrip
import SymbolicMemory.Proofs.Relisting
import SymbolicMemory.Proofs.Budget
import SymbolicMemory.Proofs.FailedAccess
import SymbolicMemory.Proofs.Simplified
import SymbolicMemory.Proofs.Reach
import SymbolicMemory.Proofs.RegionMembership
import SymbolicMemory.Proofs.LoadDisjuncts
import SymbolicMemory.Proofs.StoreRuns
import SymbolicMemory.Proofs.TotalOrder
import SymbolicMemory.Proofs.AddressLookup
import SymbolicMemory.Proofs.OneRange
import SymbolicMemory.Proofs.TirelessSolver
import SymbolicMemory.Proofs.Accepted
import SymbolicMemory.Proofs.RangeListing
import SymbolicMemory.Proofs.Parts
import SymbolicMemory.Proofs.Descent
import SymbolicMemory.Proofs.Readable
import SymbolicMemory.Proofs.Dumping
