import CircuitSynthesis.Exchange.Gate
import CircuitSynthesis.Exchange.Synthesis
import CircuitSynthesis.Circuit.Integrity
import CircuitSynthesis.Simulation
import CircuitSynthesis.Synthesis.Cascade
import CircuitSynthesis.Synthesis.ParityNetwork
import CircuitSynthesis.Synthesis.Staircase
import CircuitSynthesis.Proofs.Cascade.RoundTrip
import CircuitSynthesis.Proofs.ParityNetwork.RoundTrip
import CircuitSynthesis.Proofs.Circuit.Acyclicity
import CircuitSynthesis.Proofs.Edit
import CircuitSynthesis.Proofs.Circuit.Sound
import CircuitSynthesis.Proofs.Circuit.Integrity
import CircuitSynthesis.History
import CircuitSynthesis.Proofs.History
import CircuitSynthesis.Proofs.Staircase.RoundTrip
import CircuitSynthesis.Proofs.Atomicity
import CircuitSynthesis.Proofs.Cnot.Embedding
import CircuitSynthesis.Proofs.Cnot.RoundTrip
import CircuitSynthesis.Proofs.Simulation.Linear
import CircuitSynthesis.Proofs.Simulation.Reordering
import CircuitSynthesis.Proofs.Simulation.Adjoint
import CircuitSynthesis.Proofs.Circuit.Navigation
import CircuitSynthesis.Proofs.Circuit.Compaction
import CircuitSynthesis.Proofs.Circuit.Bookkeeping
import CircuitSynthesis.Proofs.Simulation.Cancellation
import CircuitSynthesis.Proofs.Polarity
import CircuitSynthesis.Proofs.Renaming
import CircuitSynthesis.Proofs.Simulation.Reversal
import CircuitSynthesis.Proofs.Cnot.Singularity
import CircuitSynthesis.Proofs.BinaryMatrix.Rank
import CircuitSynthesis.Proofs.ParityNetwork.WorkList
import CircuitSynthesis.Proofs.Rotations
import CircuitSynthesis.Proofs.Cnot.GateCount
import CircuitSynthesis.Proofs.Cnot.RepairFree
import CircuitSynthesis.Proofs.Cascade.Cost
import CircuitSynthesis.Proofs.Circuit.Depth
import CircuitSynthesis.Proofs.Circuit.Insertion
import CircuitSynthesis.Proofs.Staircase.Size
import CircuitSynthesis.Proofs.RangePermutation
import CircuitSynthesis.Proofs.PhasePolynomial.Collection
import CircuitSynthesis.Proofs.Cnot.PartitionSearch
import CircuitSynthesis.Proofs.Cascade.RowExchange
import CircuitSynthesis.Proofs.BinaryMatrix.History
import CircuitSynthesis.Proofs.Exchange
