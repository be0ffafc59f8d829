import RangeGuard.Analysis.Invariants

/-!
# Division check

Every divisor of a division or remainder that control can reach has to exclude zero.
`Domain.checkDivisions` makes one finding for each such divisor, with the range that the state
before its node gives it.
-/

namespace RangeGuard

/-- The values that an operand may take in a state. Of an operand that the domain does not track, or
cannot bound, nothing is known. -/
def Domain.operandRange {σ : Type} (d : Domain σ) (s : σ) : Operand → Interval
  | .const n => .point n
  | .var v =>
    if d.tracks v then
      match d.bound s (.var v.name) with
      | .ok range => range
      | .error _ => .full
    else .full

/-- Zero is outside: neither interval contains the other. An empty interval lies inside every other
one, so it does not pass. -/
def Interval.excludesZero (i : Interval) : Bool := decide (i.inclusion (.point 0) = .incomparable)

/-- A divisor that control can reach. -/
structure DivisionFinding where
  /-- The node of the division. -/
  node : Node
  /-- The divisor. -/
  divisor : Operand
  /-- The values that the divisor may take. -/
  range : Interval
  /-- Zero is not one of them. -/
  safe : Bool
deriving DecidableEq

/-- The findings at a node. -/
def Domain.divisionsAt {σ : Type} (d : Domain σ) (a : Analysis σ) (n : Node) (i : Instruction) :
    List DivisionFinding :=
  let s := a.at d n
  if d.isBottom s then []
  else i.divisors.map fun divisor =>
    let range := d.operandRange s divisor
    ⟨n, divisor, range, range.excludesZero⟩

/-- The findings of a graph, in the order of its nodes. -/
def Domain.checkDivisions {σ : Type} (d : Domain σ) (a : Analysis σ) (g : FlowGraph) :
    List DivisionFinding :=
  g.nodes.zipIdx.flatMap fun p => d.divisionsAt a p.2 p.1

end RangeGuard
