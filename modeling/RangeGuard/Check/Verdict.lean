import RangeGuard.Allocation.PointsTo
import RangeGuard.Box.Refine
import RangeGuard.Check.Indexing

/-!
# Verdicts

A procedure is proved safe if its analysis converged and no check has a finding that is not safe; a
class is proved safe if all its procedures are. Under strict settings a procedure during whose
analysis an operation failed is not proved safe either.

The verdict on a procedure (`Domain.verdict`) is the same for every domain and oracle.
`Class.verify` fixes them: boxes over the scope of the procedure, and the points-to analysis of its
locals.
-/

namespace RangeGuard

/-! ## Procedures -/

/-- The result of verifying a procedure. -/
structure ProcedureVerdict where
  /-- The procedure. -/
  name : String
  /-- No divisor can be zero. -/
  divisionSafe : Bool
  /-- No index can be out of bounds. -/
  boundsSafe : Bool
  /-- The findings of the division check. -/
  divisions : List DivisionFinding
  /-- The findings of the indexing check. -/
  accesses : List AccessFinding
  /-- The analysis converged. -/
  converged : Bool
  /-- The number of operations of the domain that failed. -/
  failureCount : Nat
deriving DecidableEq

/-- The sites that the locals of a procedure may refer to. -/
def Procedure.oracle (p : Procedure) (collection : Collection) : Oracle :=
  let flow := ValueFlow.ofProcedure collection p
  fun v => flow.targets v.name

/-- The invariants of an analysis may be relied on: it converged and, if the settings are strict, no
operation failed. -/
def Analysis.isTrusted {σ : Type} (a : Analysis σ) (settings : Settings) : Bool :=
  a.converged && !(settings.strict && !a.failures.isEmpty)

/-- The verdict on a procedure from an analysis of it. -/
def Domain.verdict {σ : Type} (d : Domain σ) (settings : Settings) (p : Procedure)
    (a : Analysis σ) : ProcedureVerdict :=
  let collection := settings.collection
  let divisions := d.checkDivisions a p.graph
  let accesses := d.checkAccesses a (p.graph.allocationSites collection) (p.oracle collection)
    collection p.graph
  { name := p.name
    -- findings prove nothing if the states need not be around all stores
    divisionSafe := a.isTrusted settings && divisions.all (·.safe)
    boundsSafe := a.isTrusted settings && accesses.all fun f => decide (f.outcome = .safe)
    divisions := divisions
    accesses := accesses
    converged := a.converged
    failureCount := a.failures.length }

/-- The nodes whose divisions are not proved safe. -/
def ProcedureVerdict.divisionViolations (v : ProcedureVerdict) : List Node :=
  (v.divisions.filter fun f => !f.safe).map (·.node)

/-- The nodes whose accesses are not proved safe. -/
def ProcedureVerdict.accessViolations (v : ProcedureVerdict) : List Node :=
  (v.accesses.filter fun f => f.outcome ≠ .safe).map (·.node)

/-! ## Classes -/

/-- The result of verifying a class. -/
structure ClassVerdict where
  /-- The class. -/
  className : String
  /-- The verdicts on its procedures, in order. -/
  procedures : List ProcedureVerdict
deriving DecidableEq

namespace ClassVerdict

/-- No divisor of any procedure can be zero. -/
def divisionSafe (v : ClassVerdict) : Bool := v.procedures.all (·.divisionSafe)

/-- No index of any procedure can be out of bounds. -/
def boundsSafe (v : ClassVerdict) : Bool := v.procedures.all (·.boundsSafe)

/-- The line on divisions. -/
def divisionLine (v : ClassVerdict) : String :=
  v.className ++ " " ++ if v.divisionSafe then "NO_DIV_ZERO" else "MAY_DIV_ZERO"

/-- The line on indexing. -/
def boundsLine (v : ClassVerdict) : String :=
  v.className ++ " " ++ if v.boundsSafe then "NO_OUT_OF_BOUNDS" else "MAY_OUT_OF_BOUNDS"

/-- Both lines. -/
def text (v : ClassVerdict) : String := v.divisionLine ++ "\n" ++ v.boundsLine ++ "\n"

end ClassVerdict

/-- The domain of boxes over the variables tracked in a procedure. -/
def Class.domainOf (c : Class) (p : Procedure) : Domain Box := Box.domain (c.scopeOf p)

/-- The flow invariants of a procedure of a class. -/
def Class.analyze (c : Class) (settings : Settings) (p : Procedure) : Analysis Box :=
  (c.domainOf p).analyze settings p.graph

/-- The verdict on a procedure of a class. -/
def Class.verdictOn (c : Class) (settings : Settings) (p : Procedure) : ProcedureVerdict :=
  (c.domainOf p).verdict settings p (c.analyze settings p)

/-- The verdict on a class: each procedure is verified on its own. -/
def Class.verify (c : Class) (settings : Settings) : ClassVerdict :=
  ⟨c.name, c.procedures.map (c.verdictOn settings)⟩

end RangeGuard
