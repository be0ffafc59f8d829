import RangeGuard.Arith.Basic

/-!
# Linear forms

A linear form is a sum of terms `k * x` and a constant. Its terms are kept sorted by variable name,
each variable has one term, and no coefficient is zero, so equal functions have equal forms.

`Arith.linear?` reads the form off an expression that is linear on its face: sums, differences and
negations of linear expressions are linear, and so is a product one of whose factors is a constant.
Quotients never are, since they round.
-/

namespace RangeGuard

/-- The function `k₁ * x₁ + ⋯ + kₙ * xₙ + constant`. -/
structure LinearForm where
  /-- The variables with their coefficients, in increasing order of names. -/
  terms : List (String × Int)
  /-- The summand without a variable. -/
  constant : Int
deriving DecidableEq, Inhabited

namespace LinearForm

/-! ## Meaning -/

/-- The value of a list of terms in a store. -/
def sumOf (σ : Store) (terms : List (String × Int)) : Int :=
  terms.foldr (fun term sum => term.2 * σ term.1 + sum) 0

/-- The value of the form in a store. -/
def value (σ : Store) (f : LinearForm) : Int := sumOf σ f.terms + f.constant

/-! ## Building forms -/

/-- The form without variables. -/
def ofConstant (n : Int) : LinearForm := ⟨[], n⟩

/-- The form of a single variable. -/
def ofVariable (x : String) : LinearForm := ⟨[(x, 1)], 0⟩

/-- No variable has a term. -/
def isConstant (f : LinearForm) : Bool := f.terms.isEmpty

/-- Adds the term `k * x`, keeping the terms sorted and dropping a sum of zero. -/
def addTerm (x : String) (k : Int) : List (String × Int) → List (String × Int)
  | [] => if k = 0 then [] else [(x, k)]
  | (y, c) :: rest =>
    if x = y then
      if c + k = 0 then rest else (y, c + k) :: rest
    else if x < y then
      if k = 0 then (y, c) :: rest else (x, k) :: (y, c) :: rest
    else (y, c) :: addTerm x k rest

/-- The sum of two forms. -/
def plus (f g : LinearForm) : LinearForm :=
  ⟨g.terms.foldl (fun terms term => addTerm term.1 term.2 terms) f.terms, f.constant + g.constant⟩

/-- The form multiplied by an integer. -/
def scaled (f : LinearForm) (k : Int) : LinearForm :=
  -- coefficients are never zero
  if k = 0 then ofConstant 0
  else ⟨f.terms.map fun term => (term.1, term.2 * k), f.constant * k⟩

end LinearForm

/-- The linear form of an expression. There is none if the expression divides or takes a remainder
anywhere, or multiplies two factors that both have a variable left after normalisation. -/
def Arith.linear? : Arith → Option LinearForm
  | .var x => some (.ofVariable x)
  | .const n => some (.ofConstant n)
  | .add a b => do
    let f ← a.linear?
    let g ← b.linear?
    return f.plus g
  | .sub a b => do
    let f ← a.linear?
    let g ← b.linear?
    return f.plus (g.scaled (-1))
  | .mul a b => do
    let f ← a.linear?
    let g ← b.linear?
    if f.isConstant then some (g.scaled f.constant)
    else if g.isConstant then some (f.scaled g.constant)
    else none
  | .div _ _ => none
  | .rem _ _ => none
  | .neg a => do
    let f ← a.linear?
    return f.scaled (-1)

end RangeGuard
