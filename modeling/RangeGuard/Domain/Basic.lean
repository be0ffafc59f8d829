import RangeGuard.Arith.Constraint
import RangeGuard.Interval.Basic
import RangeGuard.Scope

/-!
# Numeric domains

A numeric domain is a type of abstract states, each of which stands for a set of stores, with the
operations that an analysis needs. The record `Domain` holds them together with the scope that the
states are about.

Most operations may fail; a failure is a `Fault`, and it is for the analysis to recover from it.
Equality of states is not an operation of its own: `Domain.equal` asks for inclusion both ways, and
fails where either question does.
-/

namespace RangeGuard

/-- Why an operation of a domain failed. -/
inductive Fault where
  /-- A variable is not in the scope. -/
  | unknownVariable (name : String)
  /-- A state has another number of components than the scope has names. -/
  | dimensionMismatch (expected found : Nat)
deriving DecidableEq, Inhabited

/-- The wording of a fault. -/
def Fault.message : Fault → String
  | unknownVariable x => "unknown variable '" ++ x ++ "'"
  | dimensionMismatch expected found =>
    "dimension mismatch: expected " ++ toString expected ++ ", found " ++ toString found

/-- The operations of a numeric domain on the states `σ`. -/
structure Domain (σ : Type) where
  /-- The tracked variables. -/
  scope : Scope
  /-- The state of all stores. -/
  top : σ
  /-- The state of no store. -/
  bottom : σ
  /-- Recognises states of no store. -/
  isBottom : σ → Bool
  /-- Recognises states of all stores. -/
  isTop : σ → Bool
  /-- Inclusion. -/
  le : σ → σ → Except Fault Bool
  /-- A state around both. -/
  join : σ → σ → Except Fault σ
  /-- A state around the common stores. -/
  meet : σ → σ → Except Fault σ
  /-- A state around both that makes every increasing sequence stable. -/
  widen : σ → σ → Except Fault σ
  /-- The effect of storing the value of an expression in a variable. -/
  assign : σ → String → Arith → Except Fault σ
  /-- The effect of storing any value in a variable. -/
  forget : σ → String → Except Fault σ
  /-- A state around the stores in which a constraint holds. -/
  constrain : σ → Constraint → Except Fault σ
  /-- An interval around the values of an expression. -/
  bound : σ → Arith → Except Fault Interval
  /-- The constraint certainly holds. -/
  satisfies : σ → Constraint → Except Fault Bool
  /-- The written form of a state. -/
  render : σ → String

/-- Two states include each other. The second inclusion is tested only if the first holds. -/
def Domain.equal {σ : Type} (d : Domain σ) (a b : σ) : Except Fault Bool := do
  if ← d.le a b then d.le b a else return false

end RangeGuard
