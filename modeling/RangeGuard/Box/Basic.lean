import RangeGuard.Domain.Basic
import RangeGuard.Interval.Arithmetic

/-!
# Boxes

A box gives each variable of a scope an interval, independently of the others; it stands for the
stores whose values all lie in their intervals (`Box.Contains`). One box is special, `bottom`, which
stands for no store at all.

Boxes are plain lists of intervals. The operations on two boxes, `Box.le`, `Box.join`, `Box.meet`
and `Box.widen`, answer for lists of any length and any ends, and report a length that does not fit
the scope. `Box.WellFormed` singles out the boxes that the operations produce: the right length,
canonical components, and none of them empty.
-/

namespace RangeGuard

/-- A set of stores given by an interval for each variable. -/
inductive Box where
  /-- No store. -/
  | bottom
  /-- The stores whose values lie in the intervals, which follow the order of the scope. -/
  | reachable (components : List Interval)
deriving DecidableEq, Inhabited

namespace Box

/-! ## Meaning -/

/-- The value of each variable lies in the variable's interval. -/
def Contains (scope : Scope) : Box → Store → Prop
  | bottom, _ => False
  | reachable cs, σ =>
    cs.length = scope.size ∧ ∀ p ∈ scope.names.zip cs, σ p.1 ∈ p.2

/-- Bottom, or one nonempty canonical interval for each variable. -/
def WellFormed (scope : Scope) : Box → Prop
  | bottom => True
  | reachable cs => cs.length = scope.size ∧ ∀ i ∈ cs, i.Canonical ∧ i.isEmpty = false

/-! ## Building boxes -/

/-- The box with the given intervals; bottom if one of them is empty. -/
def ofComponents (cs : List Interval) : Box :=
  if cs.any Interval.isEmpty then bottom else reachable cs

/-- The box of all stores. -/
def top (scope : Scope) : Box := reachable (List.replicate scope.size .full)

/-- Recognises the box without components. -/
def isBottom (b : Box) : Bool := decide (b = bottom)

/-- Every component is the full interval. -/
def isTop : Box → Bool
  | bottom => false
  | reachable cs => cs.all Interval.isFull

/-- The position of a variable, or the fault that it is unknown. -/
def position (scope : Scope) (x : String) : Except Fault Nat :=
  match scope.position? x with
  | some i => .ok i
  | none => .error (.unknownVariable x)

/-- The box in which each listed variable has its interval and all others are unconstrained. A later
entry for the same variable replaces an earlier one. -/
def ofBounds (scope : Scope) (bounds : List (String × Interval)) : Except Fault Box := do
  let cs ← bounds.foldlM (fun cs entry => return cs.set (← position scope entry.1) entry.2)
    (List.replicate scope.size Interval.full)
  return ofComponents cs

/-- The components of a box, none for bottom; a fault if their number does not fit the scope. -/
def components? (scope : Scope) : Box → Except Fault (Option (List Interval))
  | bottom => .ok none
  | reachable cs =>
    if cs.length = scope.size then .ok (some cs)
    else .error (.dimensionMismatch scope.size cs.length)

/-! ## Order and operations on two boxes -/

/-- Inclusion, component by component. -/
def le (scope : Scope) (a b : Box) : Except Fault Bool := do
  match ← components? scope a, ← components? scope b with
  | none, _ => return true
  | some _, none => return false
  | some cs, some ds => return (cs.zip ds).all fun p => decide (p.1 ≤ p.2)

/-- Combines two boxes component by component; bottom is neutral. -/
def pointwise (scope : Scope) (f : Interval → Interval → Interval) (a b : Box) :
    Except Fault Box := do
  match ← components? scope a, ← components? scope b with
  | some cs, some ds => return ofComponents (List.zipWith f cs ds)
  -- both boxes have been checked against the scope by now
  | none, _ => return b
  | _, none => return a

/-- The smallest box around both. -/
def join (scope : Scope) (a b : Box) : Except Fault Box := pointwise scope Interval.join a b

/-- Widening, component by component. -/
def widen (scope : Scope) (a b : Box) : Except Fault Box := pointwise scope Interval.widen a b

/-- The common stores. -/
def meet (scope : Scope) (a b : Box) : Except Fault Box := do
  match ← components? scope a, ← components? scope b with
  | some cs, some ds => return ofComponents (List.zipWith Interval.meet cs ds)
  | _, _ => return bottom

/-! ## Written form -/

/-- The written form lists the constrained variables with their intervals. -/
def text (scope : Scope) : Box → String
  | bottom => "⊥"
  | reachable cs =>
    let shown := (scope.names.zip cs).filter fun p => !p.2.isFull
    "\x7b" ++ ", ".intercalate (shown.map fun p => p.1 ++ " ∈ " ++ p.2.text) ++ "\x7d"

end Box

end RangeGuard
