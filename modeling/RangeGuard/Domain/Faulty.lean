import RangeGuard.Domain.Basic

/-!
# Domains with injected faults

A fault plan names operations of a domain that fail instead of answering. `Domain.withFaults`
carries it out, on every call of an operation or only on those that involve one variable.

This is the way to exercise how an analysis recovers: whatever fails, a converged analysis has to
stay sound.
-/

namespace RangeGuard

/-- An operation of a domain that can be made to fail. -/
inductive Operation where
  | le | join | meet | widen | assign | forget | constrain | bound | satisfies
deriving DecidableEq

/-- Operations that fail. If a variable is given, operations on a variable or an expression fail
only where that variable is the target or occurs. -/
structure FaultPlan where
  /-- The operations that fail, with the name that each reports. -/
  failing : List (Operation × String)
  /-- The variable that narrows the plan. -/
  target? : Option String := none

namespace FaultPlan

/-- The name under which an operation fails, if the plan lists it. -/
def lookup (plan : FaultPlan) (op : Operation) : Option String :=
  (plan.failing.find? fun entry => entry.1 = op).map (·.2)

/-- The plan applies to a target variable. -/
def hitsTarget (plan : FaultPlan) (x : String) : Bool :=
  match plan.target? with
  | none => true
  | some y => decide (x = y)

/-- The plan applies to an expression. -/
def hitsExpr (plan : FaultPlan) (e : Arith) : Bool :=
  match plan.target? with
  | none => true
  | some y => decide (y ∈ e.occurrences)

/-- Fails with the operation's name if the plan lists the operation and it applies; otherwise gives
the operation's own answer. -/
def guard {α : Type} (plan : FaultPlan) (op : Operation) (applies : Bool)
    (answer : Except Fault α) : Except Fault α :=
  match plan.lookup op with
  | some name => if applies then .error (.unknownVariable name) else answer
  | none => answer

end FaultPlan

/-- The domain `d` in which the operations of a plan fail. -/
def Domain.withFaults {σ : Type} (d : Domain σ) (plan : FaultPlan) : Domain σ where
  scope := d.scope
  top := d.top
  bottom := d.bottom
  isBottom := d.isBottom
  isTop := d.isTop
  le a b := plan.guard .le true (d.le a b)
  join a b := plan.guard .join true (d.join a b)
  meet a b := plan.guard .meet true (d.meet a b)
  widen a b := plan.guard .widen true (d.widen a b)
  assign s x e := plan.guard .assign (plan.hitsTarget x) (d.assign s x e)
  forget s x := plan.guard .forget (plan.hitsTarget x) (d.forget s x)
  constrain s c := plan.guard .constrain (plan.hitsExpr c.expr) (d.constrain s c)
  bound s e := plan.guard .bound (plan.hitsExpr e) (d.bound s e)
  satisfies s c := plan.guard .satisfies (plan.hitsExpr c.expr) (d.satisfies s c)
  render := d.render

end RangeGuard
