import Mathlib.Data.List.Sort
import RangeGuard.Proofs.Arith.LinearForm

/-!
# Linear forms are canonical

A normal linear form can be read off its values. The constant is the value where all variables are
zero, and the coefficient of a variable is what the value gains when that variable alone becomes
one. Since a normal form lists the coefficients other than zero in the order of their variables, two
normal forms that have the same value in every store are the same form.

So normalisation decides whether two expressions that it accepts mean the same, however differently
they are written: with terms that cancel, with factors of zero, or with factors that become constant
only after something in them has cancelled. `Arith.linear?_canonical` puts this together with what
is known about a single form, and the product at the end of the file shows a factor of the last
kind.

Nothing is said about expressions that have no linear form. Two of those may well agree in every
store.
-/

namespace RangeGuard

namespace LinearForm

variable {x : String} {k : Int} {f g : LinearForm}

/-! ## §1 Reading a form off its values -/

/-- The store in which all variables are zero. -/
def zeros : Store := fun _ => 0

@[simp] theorem sumOf_zeros (terms : List (String × Int)) : sumOf zeros terms = 0 := by
  induction terms with
  | nil => rfl
  | cons term terms ih => rw [sumOf_cons, ih, zeros, Int.mul_zero, Int.add_zero]

/-- The constant of a form is its value at zero. -/
@[simp] theorem value_zeros (f : LinearForm) : f.value zeros = f.constant := by
  simp [value]

/-- What the value gains, from zeros on, when `x` alone becomes one. -/
def coefficient (f : LinearForm) (x : String) : Int := f.value (zeros.set x 1) - f.value zeros

/-- A term shows its coefficient: no other term of a normal form has the same variable. -/
private theorem coefficient_of_mem (hf : f.Normal) (h : (x, k) ∈ f.terms) :
    f.coefficient x = k := by
  rw [coefficient, value_set_of_mem hf h]
  simp

private theorem coefficient_of_not_mem (h : ∀ k, (x, k) ∉ f.terms) : f.coefficient x = 0 := by
  rw [coefficient, value_set_of_not_mem h, Int.sub_self]

/-- The terms of a normal form are the coefficients that are not zero. -/
theorem mem_terms_iff (hf : f.Normal) : (x, k) ∈ f.terms ↔ k ≠ 0 ∧ f.coefficient x = k := by
  constructor
  · intro h
    exact ⟨hf.nonzero _ h, coefficient_of_mem hf h⟩
  · rintro ⟨hk, hcoefficient⟩
    -- a variable without a term would have the coefficient zero
    by_contra hnone
    by_cases hterm : ∃ c, (x, c) ∈ f.terms
    · obtain ⟨c, hc⟩ := hterm
      apply hnone
      rwa [← hcoefficient, coefficient_of_mem hf hc]
    · apply hk
      rw [← hcoefficient]
      exact coefficient_of_not_mem (not_exists.mp hterm)

/-- Normal forms that have the same value in every store are the same. -/
theorem eq_of_value_eq (hf : f.Normal) (hg : g.Normal) (h : ∀ σ, f.value σ = g.value σ) :
    f = g := by
  have hconstant : f.constant = g.constant := by
    simpa using h zeros
  have hcoefficient : ∀ x, f.coefficient x = g.coefficient x := by
    intro x
    simp only [coefficient, h]
  have hterms : f.terms = g.terms := by
    -- both lists are sorted strictly, so it is enough that they have the same terms
    have hirrefl : Std.Irrefl fun s t : String × Int => s.1 < t.1 := ⟨fun _ => lt_irrefl _⟩
    have hantisymm : Std.Antisymm fun s t : String × Int => s.1 < t.1 :=
      ⟨fun _ _ hst hts => absurd hst hts.not_gt⟩
    apply hf.sorted.eq_of_mem_iff hg.sorted
    -- membership of a term is a statement about values, and these agree
    rintro ⟨x, k⟩
    rw [mem_terms_iff hf, mem_terms_iff hg, hcoefficient]
  cases f
  cases g
  simp_all

end LinearForm

/-! ## §2 Forms of expressions -/

/-- An expression with a linear form has a value in every store, and the form has the same value.
The form has one term for each of its variables, in the order of their names and with a coefficient
other than zero, and all these variables occur in the expression. Two expressions with linear forms
have the same form if and only if they have the same value in every store. -/
theorem Arith.linear?_canonical {e : Arith} {f : LinearForm} (h : e.linear? = some f) :
    (∀ σ, e.eval? σ = some (f.value σ)) ∧
    (f.terms.Pairwise fun s t => s.1 < t.1) ∧
    (∀ term ∈ f.terms, term.2 ≠ 0 ∧ term.1 ∈ e.vars) ∧
    ∀ (e' : Arith) (f' : LinearForm), e'.linear? = some f' →
      (f = f' ↔ ∀ σ, e.eval? σ = e'.eval? σ) := by
  have hnormal := normal_of_linear? h
  refine ⟨fun σ => eval?_of_linear? σ h, hnormal.sorted, ?_, ?_⟩
  · intro term hterm
    exact ⟨hnormal.nonzero term hterm, name_mem_vars h hterm⟩
  · intro e' f' h'
    constructor
    · intro heq σ
      rw [eval?_of_linear? σ h, eval?_of_linear? σ h', heq]
    · intro heval
      apply LinearForm.eq_of_value_eq hnormal (normal_of_linear? h')
      intro σ
      have hvalue := heval σ
      rw [eval?_of_linear? σ h, eval?_of_linear? σ h'] at hvalue
      exact Option.some.inj hvalue

/-- The product `(x - x + 2) * (y - 3)`, whose first factor is constant once `x` has cancelled. -/
def cancellingProduct : Arith :=
  .mul (.add (.sub (.var "x") (.var "x")) (.const 2)) (.sub (.var "y") (.const 3))

/-- The sum `y + (y - n)`. -/
def doubledLess (n : Int) : Arith := .add (.var "y") (.sub (.var "y") (.const n))

/-- The product is `2 * y - 6`, so it has the value of `y + (y - 6)` in every store, and not that of
`y + (y - 5)`. -/
theorem Arith.linear?_canonical_cancelling :
    cancellingProduct.linear? = some ⟨[("y", 2)], -6⟩ ∧
    (∀ σ, cancellingProduct.eval? σ = (doubledLess 6).eval? σ) ∧
    ¬ ∀ σ, cancellingProduct.eval? σ = (doubledLess 5).eval? σ := by
  have hproduct : cancellingProduct.linear? = some ⟨[("y", 2)], -6⟩ := by decide +kernel
  obtain ⟨-, -, -, hunique⟩ := Arith.linear?_canonical hproduct
  refine ⟨hproduct, ?_, ?_⟩
  · have hsix : (doubledLess 6).linear? = some ⟨[("y", 2)], -6⟩ := by decide +kernel
    exact (hunique _ _ hsix).mp rfl
  · have hfive : (doubledLess 5).linear? = some ⟨[("y", 2)], -5⟩ := by decide +kernel
    intro heval
    have hforms := (hunique _ _ hfive).mpr heval
    exact absurd hforms (by decide)

end RangeGuard
