import RangeGuard.Arith.Basic

/-!
# Constraints

A constraint relates the value of an expression to zero. There are four relations, and every
comparison of a program can be brought to one of them by a subtraction. `Constraint.Holds` says when
a constraint is true in a store: the expression has a value there, and the value stands in the
relation.
-/

namespace RangeGuard

/-- A relation of an integer to zero. -/
inductive Relation where
  /-- Equal to zero. -/
  | eq
  /-- Different from zero. -/
  | ne
  /-- At least zero. -/
  | ge
  /-- Above zero. -/
  | gt
deriving DecidableEq, Inhabited

namespace Relation

/-- The relation holds between `n` and zero. -/
def Holds : Relation → Int → Prop
  | eq, n => n = 0
  | ne, n => n ≠ 0
  | ge, n => 0 ≤ n
  | gt, n => 0 < n

instance decidableHolds : (r : Relation) → (n : Int) → Decidable (r.Holds n)
  | eq, n => inferInstanceAs (Decidable (n = 0))
  | ne, n => inferInstanceAs (Decidable (n ≠ 0))
  | ge, n => inferInstanceAs (Decidable (0 ≤ n))
  | gt, n => inferInstanceAs (Decidable (0 < n))

/-- The sign that stands between the expression and zero. -/
def symbol : Relation → String
  | eq => "="
  | ne => "≠"
  | ge => "≥"
  | gt => ">"

end Relation

/-- The statement that an expression stands in a relation to zero. -/
structure Constraint where
  /-- The expression compared with zero. -/
  expr : Arith
  /-- How it compares. -/
  relation : Relation
deriving DecidableEq, Inhabited

namespace Constraint

/-- The expression has a value in `σ`, and the value stands in the relation to zero. -/
def Holds (σ : Store) (c : Constraint) : Prop :=
  ∃ n, c.expr.eval? σ = some n ∧ c.relation.Holds n

/-- The written form. -/
def text (c : Constraint) : String :=
  c.expr.text ++ " " ++ c.relation.symbol ++ " 0"

instance : ToString Constraint := ⟨text⟩

end Constraint

end RangeGuard
