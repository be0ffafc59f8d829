import RangeGuard.Proofs.Box.Comparison

/-!
# Constraints on one variable are solved

A constraint whose linear form has a single term `k * x` is a condition on the value of `x` alone,
however the expression is written. An equation or an inequality leaves an interval of such values,
and refinement finds exactly that interval: the quotients are rounded inward, a negative coefficient
exchanges the ends, and where no integer is left the result is bottom. A disequality takes out one
value. If that value lies inside the interval of `x`, no box can say so, and the result is the
smallest box around what is left.

The range of the expression, which is tested first, may be larger than the values that the
expression takes: `x - x` has a range of more than one value. That costs nothing here. The test
rejects only boxes without a solution, and the others are left to the linear form.

This file specialises the theory of hulls to forms with one term, where there are no coefficients
beside it and the conditions on coefficients hold trivially (`Box.unitBeside_single`).
-/

namespace RangeGuard

@[simp] theorem LinearForm.value_single (σ : Store) (x : String) (k m : Int) :
    (⟨[(x, k)], m⟩ : LinearForm).value σ = k * σ x + m := by
  simp [value]

namespace Box

variable {scope : Scope} {b t : Box} {cs : List Interval} {σ : Store} {x : String} {k m : Int}
  {region : Interval} {c : Constraint}

/-- Refinement answers for expressions within the scope only. -/
private theorem within_of_constrain (ht : constrain scope b c = .ok t) : c.expr.Within scope := by
  obtain ⟨⟨⟩, hcheck, -⟩ := bind_eq_ok_iff.mp ht
  exact checkVariables_eq_ok_iff.mp hcheck

/-- There are no coefficients beside a single term. -/
theorem unitBeside_single : UnitBeside ⟨[(x, k)], m⟩ x := by
  intro term hterm
  obtain ⟨hmem, hne⟩ := List.mem_filter.mp hterm
  simp_all

/-- Tightening by a form with one term keeps exactly the stores in which the form has a value in the
region. -/
theorem contains_tighten_iff (h : WellFormed scope (reachable cs))
    (hf : LinearForm.Normal ⟨[(x, k)], m⟩) (hregion : region.Canonical) (hx : x ∈ scope.names) :
    Contains scope (reachable (tighten scope ⟨[(x, k)], m⟩ region cs)) σ ↔
      Contains scope (reachable cs) σ ∧ k * σ x + m ∈ region := by
  constructor
  · intro hσ
    have hmem := (contains_iff.mp hσ).2
    refine ⟨contains_iff.mpr ⟨h.1, fun y => ?_⟩, ?_⟩
    · exact Interval.mem_of_le (lookup_tighten_le _ region h.1 y) (hmem y)
    · -- some solution has the same value at `x`, and the form depends on nothing else
      obtain ⟨τ, ⟨-, hvalue⟩, hτ⟩ := exists_solution_of_mem_tighten h hf hregion hx
        (List.mem_singleton_self (x, k)) unitBeside_single (hmem x)
      simpa [hτ] using hvalue
  · rintro ⟨hσ, hvalue⟩
    apply contains_tighten hf _ hσ
    simpa using hvalue

/-- Refinement by an equation or inequality on one variable keeps exactly the stores in which it
holds. -/
theorem contains_constrain_iff (hb : WellFormed scope b)
    (hlinear : c.expr.linear? = some ⟨[(x, k)], m⟩) (hconvex : c.relation ≠ .ne)
    (ht : constrain scope b c = .ok t) :
    Contains scope t σ ↔ Contains scope b σ ∧ c.relation.Holds (k * σ x + m) := by
  have hx : x ∈ scope.names :=
    within_of_constrain ht x (Arith.name_mem_vars hlinear (List.mem_singleton_self (x, k)))
  have hholds : c.Holds σ ↔ c.relation.Holds (k * σ x + m) := by
    rw [holds_iff_value hlinear, LinearForm.value_single]
  obtain ⟨rfl, rfl⟩ | ⟨cs, rfl, -, ⟨hnone, rfl⟩ | ⟨refined, hrefined, rfl⟩⟩ := constrain_cases ht
  · exact ⟨False.elim, And.left⟩
  · -- the range of the expression excludes every solution
    constructor
    · exact False.elim
    · rintro ⟨hσ, hsolves⟩
      exact not_holds_of_refine?_eq_none hnone hσ (hholds.mpr hsolves)
  · -- only a disequality has no region, and that is excluded here
    obtain ⟨region, hregion, -, rfl⟩ | ⟨hne, -, -⟩ := refine?_cases hrefined
    · rw [contains_ofComponents, hlinear, Option.elim_some, holds_iff_mem_region hregion]
      exact contains_tighten_iff hb (Arith.normal_of_linear? hlinear) (canonical_region hregion) hx
    · exact absurd hne hconvex

/-- Refinement by a constraint with the linear form `k * x + m` answers exactly if all variables of
its expression are in the scope. The result is the smallest well-formed box around the stores in
which the constraint holds, and bottom if there are none. Unless the constraint is a disequality,
the box has these stores and no others. -/
theorem constrain_solves (hb : WellFormed scope b)
    (hlinear : c.expr.linear? = some ⟨[(x, k)], m⟩) :
    ((∃ t, constrain scope b c = .ok t) ↔ c.expr.Within scope) ∧
    ∀ t, constrain scope b c = .ok t → WellFormed scope t ∧
      Least scope (fun σ => Contains scope b σ ∧ c.relation.Holds (k * σ x + m)) t ∧
      (c.relation ≠ .ne → ∀ σ,
        Contains scope t σ ↔ Contains scope b σ ∧ c.relation.Holds (k * σ x + m)) := by
  refine ⟨⟨fun ⟨t, ht⟩ => within_of_constrain ht, exists_constrain hb.proper⟩, ?_⟩
  intro t ht
  refine ⟨(preserves_wellFormed scope).constrain hb ht, ?_,
    fun hconvex σ => contains_constrain_iff hb hlinear hconvex ht⟩
  -- the general statement on hulls, whose condition on the other coefficients is empty
  have hhull : IsHull scope (fun σ => Contains scope b σ ∧ c.Holds σ) t := by
    apply isHull_constrain hb (within_of_constrain ht) hlinear _ (by simp) ht
    simpa using unitBeside_single
  refine (hhull.congr fun σ => and_congr_right fun _ => ?_).least
  rw [holds_iff_value hlinear, LinearForm.value_single]

/-- The constraint that `7 - 3 * x` is at least zero, with a variable that cancels. -/
def threeTimesAtMostSeven : Constraint :=
  ⟨.sub (.add (.sub (.var "y") (.var "y")) (.const 7)) (.mul (.var "x") (.const 3)), .ge⟩

/-- Any integer for `x`, and from zero to five for `y`. -/
def strip : Box := reachable [.full, ⟨.finite 0, .finite 5⟩]

/-- The third of seven is rounded down to two. -/
theorem constrain_solves_strip :
    WellFormed (Scope.ofNames ["x", "y"]) strip ∧
    threeTimesAtMostSeven.expr.linear? = some ⟨[("x", -3)], 7⟩ ∧
    ∀ σ, Contains (Scope.ofNames ["x", "y"])
        (reachable [⟨.negInf, .finite 2⟩, ⟨.finite 0, .finite 5⟩]) σ ↔
      Contains (Scope.ofNames ["x", "y"]) strip σ ∧ 0 ≤ -3 * σ "x" + 7 := by
  have hb : WellFormed (Scope.ofNames ["x", "y"]) strip := by
    unfold WellFormed strip
    decide
  have hlinear : threeTimesAtMostSeven.expr.linear? = some ⟨[("x", -3)], 7⟩ := by decide +kernel
  have hresult : constrain (Scope.ofNames ["x", "y"]) strip threeTimesAtMostSeven =
      .ok (reachable [⟨.negInf, .finite 2⟩, ⟨.finite 0, .finite 5⟩]) := by decide +kernel
  obtain ⟨-, -, hexact⟩ := (constrain_solves hb hlinear).2 _ hresult
  exact ⟨hb, hlinear, hexact (by decide)⟩

end Box

end RangeGuard
