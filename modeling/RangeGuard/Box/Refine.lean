import RangeGuard.Arith.Linear
import RangeGuard.Box.Basic

/-!
# Assignment and refinement of boxes

Expressions are evaluated in interval arithmetic over the components of a box (`Arith.range`).
Assignment stores such a range in one component, and a query reads it.

## Refinement

`Box.constrain` first tests the range of the expression of a constraint. If no value of it satisfies
the constraint, the box becomes bottom. Otherwise, if the expression is linear, the bound of each
variable is tightened by solving the form for that variable, in two rounds over the terms. An
inequation removes a value from a variable only where the rest of the form is constant and the value
is an end of the variable's interval.

The operations together make up `Box.domain`, the numeric domain of the analysis.
-/

namespace RangeGuard

/-! ## Ranges of expressions -/

/-- The range of an expression when each variable lies in the interval that `ρ` gives it. -/
def Arith.range (ρ : String → Interval) : Arith → Interval
  | .var x => ρ x
  | .const n => .point n
  | .add a b => a.range ρ + b.range ρ
  | .sub a b => a.range ρ - b.range ρ
  | .mul a b => a.range ρ * b.range ρ
  | .div a b => (a.range ρ).tdiv (b.range ρ)
  | .rem a b => (a.range ρ).tmod (b.range ρ)
  | .neg a => -a.range ρ

namespace Box

/-- The interval that a list of components gives to a variable; a variable that has none is
unconstrained. -/
def lookup (scope : Scope) (cs : List Interval) (x : String) : Interval :=
  match scope.position? x with
  | some i => cs.getD i .full
  | none => .full

/-- Replaces the interval of a variable. -/
def update (scope : Scope) (cs : List Interval) (x : String) (i : Interval) : List Interval :=
  match scope.position? x with
  | some k => cs.set k i
  | none => cs

/-- Fails with the first variable of the expression that is not in the scope. -/
def checkVariables (scope : Scope) (e : Arith) : Except Fault Unit :=
  match e.vars.find? fun x => !scope.contains x with
  | some x => .error (.unknownVariable x)
  | none => .ok ()

/-! ## Assignment and queries -/

/-- Stores the range of `e` in the component of `x`. -/
def assign (scope : Scope) (b : Box) (x : String) (e : Arith) : Except Fault Box := do
  -- an unknown target is reported before an unknown operand
  let k ← position scope x
  checkVariables scope e
  match ← components? scope b with
  | none => return bottom
  | some cs => return ofComponents (cs.set k (e.range (lookup scope cs)))

/-- Drops all knowledge of `x`. -/
def forget (scope : Scope) (b : Box) (x : String) : Except Fault Box := do
  let k ← position scope x
  match ← components? scope b with
  | none => return bottom
  | some cs => return reachable (cs.set k .full)

/-- The range of an expression in a box. -/
def bound (scope : Scope) (b : Box) (e : Arith) : Except Fault Interval := do
  checkVariables scope e
  match ← components? scope b with
  | none => return .empty
  | some cs => return e.range (lookup scope cs)

/-! ## Refinement by a constraint -/

/-- The values that satisfy a relation to zero, if they form an interval. Above zero is at least
one. -/
def region? : Relation → Option Interval
  | .eq => some (.point 0)
  | .ge => some (.between (.finite 0) .posInf)
  | .gt => some (.between (.finite 1) .posInf)
  | .ne => none

/-- The constraint holds for every value in the range of its expression. -/
def satisfies (scope : Scope) (b : Box) (c : Constraint) : Except Fault Bool := do
  let value ← bound scope b c.expr
  -- there is no value at which the constraint could fail
  if value.isEmpty then return true
  match region? c.relation with
  | some region => return decide (value ≤ region)
  | none => return !decide ((0 : Int) ∈ value)

/-- The range of a linear form without the term of `skip`. -/
def restRange (scope : Scope) (cs : List Interval) (f : LinearForm) (skip : String) : Interval :=
  f.terms.foldl
    (fun rest term =>
      if term.1 = skip then rest
      else rest + Interval.point term.2 * lookup scope cs term.1)
    (.point f.constant)

/-- Tightens the variable of one term so that the form can take a value in `region`. -/
def tightenTerm (scope : Scope) (f : LinearForm) (region : Interval) (cs : List Interval)
    (term : String × Int) : List Interval :=
  -- what the term can be, given the rest of the form
  let target := region - restRange scope cs f term.1
  update scope cs term.1 ((lookup scope cs term.1).meet (target.divExact term.2))

/-- One round over all terms. -/
def tightenRound (scope : Scope) (f : LinearForm) (region : Interval) (cs : List Interval) :
    List Interval :=
  f.terms.foldl (tightenTerm scope f region) cs

/-- Two rounds over all terms, so that what the last variables gained reaches the first ones. -/
def tighten (scope : Scope) (f : LinearForm) (region : Interval) (cs : List Interval) :
    List Interval :=
  tightenRound scope f region (tightenRound scope f region cs)

/-- The interval without the value `n`, if `n` is one of its ends; otherwise the interval itself. -/
def trimEnd (i : Interval) (n : Int) : Interval :=
  if i.low = .finite n then .between (.finite (n + 1)) i.high
  else if i.high = .finite n then .between i.low (.finite (n - 1))
  else i

/-- Removes from one variable the value at which the form would be zero, if the rest of the form is
constant and that value is an end of the variable's interval. -/
def excludeTerm (scope : Scope) (f : LinearForm) (cs : List Interval) (term : String × Int) :
    List Interval :=
  match (restRange scope cs f term.1).constant? with
  | none => cs
  | some rest =>
    -- otherwise no integer makes the form zero
    if (-rest).tmod term.2 = 0 then
      update scope cs term.1 (trimEnd (lookup scope cs term.1) ((-rest).tdiv term.2))
    else cs

/-- Removes the zero of the form from each variable in turn. -/
def exclude (scope : Scope) (f : LinearForm) (cs : List Interval) : List Interval :=
  f.terms.foldl (excludeTerm scope f) cs

/-- The components refined by a constraint; none if no value of the expression satisfies it. -/
def refine? (scope : Scope) (cs : List Interval) (c : Constraint) : Option (List Interval) :=
  let value := c.expr.range (lookup scope cs)
  match region? c.relation with
  | some region =>
    -- the range of the expression decides first, also without a linear form
    if (value.meet region).isEmpty then none
    else match c.expr.linear? with
      | some f => some (tighten scope f region cs)
      | none => some cs
  | none =>
    if value = .point 0 then none
    else match c.expr.linear? with
      | some f => some (exclude scope f cs)
      | none => some cs

/-- A box around the stores of `b` in which the constraint holds. -/
def constrain (scope : Scope) (b : Box) (c : Constraint) : Except Fault Box := do
  checkVariables scope c.expr
  match ← components? scope b with
  | none => return bottom
  | some cs =>
    match refine? scope cs c with
    | none => return bottom
    | some refined => return ofComponents refined

/-! ## The domain of boxes -/

/-- Boxes over a scope as a numeric domain. -/
def domain (scope : Scope) : Domain Box where
  scope := scope
  top := top scope
  bottom := bottom
  isBottom := isBottom
  isTop := isTop
  le := le scope
  join := join scope
  meet := meet scope
  widen := widen scope
  assign := assign scope
  forget := forget scope
  constrain := constrain scope
  bound := bound scope
  satisfies := satisfies scope
  render := text scope

end Box

end RangeGuard
