import FieldCircuit.Arithmetic
import FieldCircuit.Checkpoint.Basic
import FieldCircuit.Checkpoint.Restore
import FieldCircuit.Checkpoint.Version
import FieldCircuit.Circuit.Action
import FieldCircuit.Circuit.Construction
import FieldCircuit.Circuit.Context
import FieldCircuit.Circuit.Description
import FieldCircuit.Circuit.Environment
import FieldCircuit.Circuit.Error
import FieldCircuit.Circuit.Graph
import FieldCircuit.Circuit.Order
import FieldCircuit.Config
import FieldCircuit.Decimal.Layout
import FieldCircuit.Decimal.Reader
import FieldCircuit.Decimal.Rounding
import FieldCircuit.Decimal.Shortest
import FieldCircuit.Device.Spec
import FieldCircuit.Entries
import FieldCircuit.Field.Element
import FieldCircuit.Field.Layout
import FieldCircuit.Field.Shape
import FieldCircuit.Field.Type
import FieldCircuit.HostFunction
import FieldCircuit.Kernel.Convolution
import FieldCircuit.Kernel.Correlation
import FieldCircuit.Kernel.Error
import FieldCircuit.Kernel.Fourier
import FieldCircuit.Kernel.Launch
import FieldCircuit.Kernel.Pointwise
import FieldCircuit.Kernel.Reduction
import FieldCircuit.Kernel.Stage
import FieldCircuit.Kernel.Synthesis
import FieldCircuit.Kernel.Synthesis.Convolution
import FieldCircuit.Kernel.Synthesis.Correlation
import FieldCircuit.Kernel.Synthesis.Fourier
import FieldCircuit.Kernel.Synthesis.Pointwise
import FieldCircuit.Kernel.Synthesis.Reduction
import FieldCircuit.Kernel.Synthesis.TensorSum
import FieldCircuit.Kernel.TensorSum
import FieldCircuit.Kernel.TilePlan
import FieldCircuit.Launch.Addressing
import FieldCircuit.Launch.PointMap
import FieldCircuit.Launch.WorkGroup
import FieldCircuit.Memory.Allocator
import FieldCircuit.Memory.Buffer
import FieldCircuit.Memory.Contents
import FieldCircuit.Memory.Error
import FieldCircuit.Memory.Inventory
import FieldCircuit.Memory.Pair
import FieldCircuit.Opcode.Basic
import FieldCircuit.Opcode.Border
import FieldCircuit.Opcode.Text
import FieldCircuit.Pacing
import FieldCircuit.Plan.Cache
import FieldCircuit.Plan.Key
import FieldCircuit.Proofs.Circuit.Construction
import FieldCircuit.Proofs.Circuit.Dataflow
import FieldCircuit.Proofs.Circuit.Machine
import FieldCircuit.Proofs.Circuit.Order
import FieldCircuit.Proofs.Circuit.WellFormed
import FieldCircuit.Proofs.DiscreteTransform
import FieldCircuit.Proofs.Field.Layout
import FieldCircuit.Proofs.FilterAdjoint
import FieldCircuit.Proofs.Keeping
import FieldCircuit.Proofs.Kernel.Correlation
import FieldCircuit.Proofs.Kernel.Evaluation
import FieldCircuit.Proofs.Kernel.Execution
import FieldCircuit.Proofs.Kernel.Fourier
import FieldCircuit.Proofs.Kernel.FourierStages
import FieldCircuit.Proofs.Kernel.Launch
import FieldCircuit.Proofs.Kernel.Point
import FieldCircuit.Proofs.Kernel.PointStages
import FieldCircuit.Proofs.Kernel.Reduction
import FieldCircuit.Proofs.Kernel.ResultTypes
import FieldCircuit.Proofs.Kernel.Sound
import FieldCircuit.Proofs.Kernel.Stages
import FieldCircuit.Proofs.Kernel.Synthesized
import FieldCircuit.Proofs.Kernel.TilePlan
import FieldCircuit.Proofs.Kernel.TreePipeline
import FieldCircuit.Proofs.Launch.Coverage
import FieldCircuit.Proofs.Memory.Allocation
import FieldCircuit.Proofs.Memory.Buffer
import FieldCircuit.Proofs.Memory.Encoding
import FieldCircuit.Proofs.Memory.Pair
import FieldCircuit.Proofs.Outcome
import FieldCircuit.Proofs.Pacing
import FieldCircuit.Proofs.Plan
import FieldCircuit.Proofs.Scheduler.Calls
import FieldCircuit.Proofs.Scheduler.Kernels
import FieldCircuit.Proofs.Scheduler.State
import FieldCircuit.Proofs.Source.Plain
import FieldCircuit.Proofs.Source.Template
import FieldCircuit.Proofs.Stores
import FieldCircuit.Proofs.Table
import FieldCircuit.Proofs.Transform
import FieldCircuit.Register
import FieldCircuit.Scheduler
import FieldCircuit.Sensor
import FieldCircuit.Session
import FieldCircuit.Size
import FieldCircuit.Source.Geometry
import FieldCircuit.Source.Listing
import FieldCircuit.Source.Template
import FieldCircuit.Text.Blank
import FieldCircuit.Text.Escaped
import FieldCircuit.Text.Hidden
import FieldCircuit.Text.Number
import FieldCircuit.Text.Upper
import FieldCircuit.Proofs.Kernel.PartialResults
import FieldCircuit.Proofs.FieldReduction
import FieldCircuit.Proofs.Kernel.StaleMemory
import FieldCircuit.Proofs.Memory.Coherence
import FieldCircuit.Proofs.Scheduler.Cycle
import FieldCircuit.Proofs.Scheduler.Restart
import FieldCircuit.Proofs.Scheduler.Start
import FieldCircuit.Proofs.Scheduler.Refinement
import FieldCircuit.Proofs.Field.Storage
import FieldCircuit.Proofs.Memory.Accounting
import FieldCircuit.Proofs.Memory.Reuse
import FieldCircuit.Proofs.Leading
import FieldCircuit.Proofs.Memory.Balance
import FieldCircuit.Proofs.Memory.Inventory
import FieldCircuit.Proofs.Memory.Commands
import FieldCircuit.Proofs.Circuit.Agreement
import FieldCircuit.Proofs.Scheduler.Journal
import FieldCircuit.Proofs.Scheduler.Replay
import FieldCircuit.Proofs.Launch.Limits
import FieldCircuit.Proofs.Launch.Visits
import FieldCircuit.Proofs.Kernel.DeviceLimits
import FieldCircuit.Proofs.Failing
import FieldCircuit.Proofs.Kernel.Overflow
import FieldCircuit.Proofs.Kernel.Acceptance
import FieldCircuit.Proofs.Entries
import FieldCircuit.Proofs.PlanHistory
import FieldCircuit.Proofs.PlanSharing
import FieldCircuit.Proofs.Opcode.Border
import FieldCircuit.Proofs.Opcode.Text
import FieldCircuit.Proofs.Checkpoint.Restore
import FieldCircuit.Proofs.InverseTransform
import FieldCircuit.Proofs.ConvolutionAdjoint
import FieldCircuit.Proofs.Circuit.Context
import FieldCircuit.Proofs.Memory.Room
import FieldCircuit.Proofs.Checkpoint.Faults
import FieldCircuit.Proofs.Memory.Quantization
import FieldCircuit.Proofs.Kernel.ReductionOrder
import FieldCircuit.Proofs.Phase
import FieldCircuit.Proofs.Kernel.ThreadOrder
import FieldCircuit.Proofs.Kernel.FourierOrder
import FieldCircuit.Proofs.TensorSum
import FieldCircuit.Proofs.PointOperations
import FieldCircuit.Proofs.Convolution
import FieldCircuit.Proofs.CyclicShift
import FieldCircuit.Proofs.Launch.Shrinking
import FieldCircuit.Proofs.Kernel.TileSearch
import FieldCircuit.Proofs.BalancedSums
import FieldCircuit.Proofs.PacedCalls
import FieldCircuit.Proofs.Scheduler.Reachable
import FieldCircuit.Proofs.Scheduler.Sensors
import FieldCircuit.Proofs.Scheduler.FailedSteps
import FieldCircuit.Proofs.Kernel.CleanFailures
import FieldCircuit.Proofs.Source.Substitution
import FieldCircuit.Proofs.PacedRates
