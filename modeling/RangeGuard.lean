import RangeGuard.Bound
import RangeGuard.Interval.Basic
import RangeGuard.Interval.Arithmetic
import RangeGuard.Arith.Basic
import RangeGuard.Arith.Linear
import RangeGuard.Arith.Constraint
import RangeGuard.Scope
import RangeGuard.Domain.Basic
import RangeGuard.Domain.Faulty
import RangeGuard.Box.Basic
import RangeGuard.Box.Refine
import RangeGuard.Program.Ty
import RangeGuard.Program.Instruction
import RangeGuard.Program.FlowGraph
import RangeGuard.Program.Loops
import RangeGuard.Program.Class
import RangeGuard.Semantics.Execution
import RangeGuard.Settings
import RangeGuard.Analysis.Transfer
import RangeGuard.Analysis.Invariants
import RangeGuard.Allocation.Site
import RangeGuard.Allocation.PointsTo
import RangeGuard.Check.Division
import RangeGuard.Check.Indexing
import RangeGuard.Check.Verdict
import RangeGuard.Drawing.Dot
import RangeGuard.Text.Letter
import RangeGuard.Text.Split
import RangeGuard.Text.Numeral
import RangeGuard.Source.Error
import RangeGuard.Source.Name
import RangeGuard.Source.Statement
import RangeGuard.Source.Class
import RangeGuard.Files.Path
import RangeGuard.Files.System
import RangeGuard.Files.Disk
import RangeGuard.Files.Load
import RangeGuard.Command.Options
import RangeGuard.Command.Run
import RangeGuard.Main
import RangeGuard.Proofs.Interval.Ends
import RangeGuard.Proofs.Interval.Membership
import RangeGuard.Proofs.Interval.Enclosure
import RangeGuard.Proofs.Interval.Order
import RangeGuard.Proofs.Interval.Monotone
import RangeGuard.Proofs.Interval.Canonical
import RangeGuard.Proofs.Interval.Exact
import RangeGuard.Proofs.Interval.Hull
import RangeGuard.Proofs.Arith.LinearForm
import RangeGuard.Proofs.Arith.Canonicity
import RangeGuard.Proofs.Box.Lookup
import RangeGuard.Proofs.Domain.Soundness
import RangeGuard.Proofs.Box.Soundness
import RangeGuard.Proofs.Box.Widening
import RangeGuard.Proofs.Box.Order
import RangeGuard.Proofs.Box.Monotone
import RangeGuard.Proofs.Box.WellFormed
import RangeGuard.Proofs.Box.Stabilising
import RangeGuard.Proofs.Program.LoopHeaders
import RangeGuard.Proofs.Program.Cycles
import RangeGuard.Proofs.Program.Linking
import RangeGuard.Proofs.Program.Edges
import RangeGuard.Proofs.Analysis.Transfer
import RangeGuard.Proofs.Analysis.Query
import RangeGuard.Proofs.Analysis.Visit
import RangeGuard.Proofs.Analysis.States
import RangeGuard.Proofs.Analysis.Settled
import RangeGuard.Proofs.Analysis.Soundness
import RangeGuard.Proofs.Analysis.Termination
import RangeGuard.Proofs.Analysis.Answers
import RangeGuard.Proofs.Analysis.Ordered
import RangeGuard.Proofs.Box.Reduction
import RangeGuard.Proofs.Box.Evaluation
import RangeGuard.Proofs.Box.Valueless
import RangeGuard.Proofs.Box.Guarded
import RangeGuard.Proofs.Box.Lattice
import RangeGuard.Proofs.Box.Faults
import RangeGuard.Proofs.Box.Hull
import RangeGuard.Proofs.Box.Comparison
import RangeGuard.Proofs.Box.Solving
import RangeGuard.Proofs.Analysis.Growth
import RangeGuard.Proofs.Analysis.LeastSolution
import RangeGuard.Proofs.Analysis.Simulation
import RangeGuard.Proofs.Check.Division
import RangeGuard.Proofs.Check.Indexing
import RangeGuard.Proofs.Source.Declarations
import RangeGuard.Proofs.Source.Faults
import RangeGuard.Proofs.Source.Layout
import RangeGuard.Proofs.Program.Renaming
import RangeGuard.Proofs.Box.Renaming
import RangeGuard.Proofs.Analysis.CountedLoop
import RangeGuard.Proofs.Analysis.Renaming
import RangeGuard.Proofs.Allocation.Solution
import RangeGuard.Proofs.Allocation.Chains
import RangeGuard.Proofs.Allocation.PointsTo
import RangeGuard.Proofs.Source.WellFormed
import RangeGuard.Proofs.Text.Cutting
import RangeGuard.Proofs.Source.Spelling
import RangeGuard.Proofs.Source.Printing
import RangeGuard.Proofs.Source.Listing
import RangeGuard.Proofs.Check.CountedLoop
import RangeGuard.Proofs.Source.Literals
import RangeGuard.Proofs.Drawing.Quoting
