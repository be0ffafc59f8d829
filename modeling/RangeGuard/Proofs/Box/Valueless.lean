import RangeGuard.Proofs.Box.Reduction

/-!
# Constraints on expressions without a value

A quotient or a remainder has no value where its divisor is zero, so there are boxes in which an
expression has no value at all; its bound is empty there. No constraint on the expression holds in
such a box. An equation or an inequality finds that out, because an empty interval has no part in
common with any region. A disequality does not: it only looks for the bound zero, and lets the box
pass.

So refinement by a disequality can lose its order. The bound of `0 / x` is empty for `x = 0` and
zero for `x` from zero to one. The smaller box is kept, and the larger one is refined to bottom.
This is the only way in which refinement fails to be monotone: `Box.constrain_le_constrain_iff`
names the one case, and `Box.constrain_not_monotone` is an instance of it.

The analysis is not affected. The constraints of branches are comparisons of operands, which divide
nowhere.
-/

namespace RangeGuard

namespace Box

variable {scope : Scope} {a b : Box} {cs : List Interval} {c : Constraint} {e : Arith}

/-! ## Expressions without a value -/

/-- A linear expression divides by nothing, so it has a value in every store of a box. -/
theorem isEmpty_range_of_linear? {f : LinearForm} (hcs : WellFormed scope (reachable cs))
    (hlinear : e.linear? = some f) : (e.range (lookup scope cs)).isEmpty = false := by
  obtain ⟨σ, hσ⟩ := hcs.exists_contains
  have heval := Arith.eval?_of_linear? σ hlinear
  exact Interval.isEmpty_eq_false_of_mem (Arith.mem_range (contains_iff.mp hσ).2 heval)

/-- In a well-formed box the bound is the empty interval if the range has no members. -/
private theorem bound_eq_empty_iff (hcs : WellFormed scope (reachable cs)) (he : e.Within scope) :
    bound scope (reachable cs) e = .ok .empty ↔ (e.range (lookup scope cs)).isEmpty = true := by
  rw [bound_reachable hcs.1 he, Except.ok.injEq]
  constructor
  · intro hempty
    rw [hempty]
    rfl
  · intro hempty
    have hcanonical := Arith.canonical_range hcs.canonical_lookup e
    rcases Interval.canonical_iff.mp hcanonical with heq | ⟨n, hn⟩
    · exact heq
    · exact absurd hn (Interval.not_mem_of_isEmpty hempty)

/-- Refinement of components, once names and lengths have been checked. -/
private theorem constrain_reachable (hlen : cs.length = scope.size) (hc : c.expr.Within scope) :
    constrain scope (reachable cs) c = .ok ((refine? scope cs c).elim bottom ofComponents) := by
  rw [constrain, checkVariables_eq_ok hc, components?, if_pos hlen]
  cases hrefined : refine? scope cs c <;> simp only [bind, Except.bind, hrefined] <;> rfl

/-- A disequality on an expression that is not linear keeps a box or rejects it as a whole. -/
theorem constrain_of_not_linear (hcs : WellFormed scope (reachable cs)) (hc : c.expr.Within scope)
    (hne : c.relation = .ne) (hlinear : c.expr.linear? = none) :
    constrain scope (reachable cs) c =
      .ok (if c.expr.range (lookup scope cs) = .point 0 then bottom else reachable cs) := by
  have hrefine : refine? scope cs c =
      if c.expr.range (lookup scope cs) = .point 0 then none else some cs := by
    simp only [refine?, hne, region?, hlinear]
  rw [constrain_reachable hcs.1 hc, hrefine]
  split
  · rfl
  · exact congrArg Except.ok (ofComponents_eq_reachable hcs.proper.2)

/-! ## Inclusion -/

/-- Where an expression has no value in the smaller box, refinement by a disequality keeps that box,
and so it keeps the inclusion if it keeps the larger box too. -/
theorem constrain_le_of_valueless {ds : List Interval} (hcs : WellFormed scope (reachable cs))
    (hds : WellFormed scope (reachable ds))
    (hle : le scope (reachable cs) (reachable ds) = .ok true)
    (hc : c.expr.Within scope) (hne : c.relation = .ne)
    (hempty : (c.expr.range (lookup scope cs)).isEmpty = true) :
    ∃ s t included, constrain scope (reachable cs) c = .ok s ∧
      constrain scope (reachable ds) c = .ok t ∧
      le scope s t = .ok included ∧
      (included = false ↔ bound scope (reachable ds) c.expr = .ok (.point 0)) := by
  -- an expression without a value has no linear form, since forms always have values
  have hlinear : c.expr.linear? = none := by
    cases hlinear : c.expr.linear? with
    | none => rfl
    | some f =>
      rw [isEmpty_range_of_linear? hcs hlinear] at hempty
      cases hempty
  -- the empty range is not zero, so that the smaller box is kept
  have hkept : c.expr.range (lookup scope cs) ≠ .point 0 := by
    intro hzero
    rw [hzero] at hempty
    cases hempty
  have hsmall := constrain_of_not_linear hcs hc hne hlinear
  rw [if_neg hkept] at hsmall
  have hlarge := constrain_of_not_linear hds hc hne hlinear
  rw [bound_reachable hds.1 hc, Except.ok.injEq]
  by_cases hzero : c.expr.range (lookup scope ds) = .point 0
  · -- only the larger box is rejected
    rw [if_pos hzero] at hlarge
    have hcomponents : components? scope (reachable cs) = .ok (some cs) := if_pos hcs.1
    refine ⟨_, _, false, hsmall, hlarge, ?_, iff_of_true rfl hzero⟩
    rw [le, hcomponents]
    rfl
  · rw [if_neg hzero] at hlarge
    exact ⟨_, _, true, hsmall, hlarge, hle, iff_of_false (by simp) hzero⟩

/-- Refinement of well-formed boxes by a constraint over the scope answers, and it keeps an
inclusion except in one case: the constraint is a disequality, its expression has no value in the
smaller box, and zero is its only value in the larger one. -/
theorem constrain_le_constrain_iff (ha : WellFormed scope a) (hb : WellFormed scope b)
    (hle : le scope a b = .ok true) (hc : c.expr.Within scope) :
    ∃ s t included, constrain scope a c = .ok s ∧ constrain scope b c = .ok t ∧
      le scope s t = .ok included ∧
      (included = false ↔ a ≠ bottom ∧ c.relation = .ne ∧ bound scope a c.expr = .ok .empty ∧
        bound scope b c.expr = .ok (.point 0)) := by
  -- in every other case the general statement on monotonicity applies
  by_cases hvalueless : a ≠ bottom ∧ c.relation = .ne ∧ bound scope a c.expr = .ok .empty
  · obtain ⟨hreached, hne, hempty⟩ := hvalueless
    obtain rfl | ⟨cs, ds, rfl, rfl, -⟩ := le_cases hle
    · exact absurd rfl hreached
    obtain ⟨s, t, included, hs, ht, hincluded, hiff⟩ :=
      constrain_le_of_valueless ha hb hle hc hne ((bound_eq_empty_iff ha hc).mp hempty)
    exact ⟨s, t, included, hs, ht, hincluded, by simp [hiff, hne, hempty]⟩
  · obtain ⟨s, hs⟩ := exists_constrain ha.proper hc
    obtain ⟨t, ht⟩ := exists_constrain hb.proper hc
    refine ⟨s, t, true, hs, ht, constrain_le_constrain ha.proper hle ?_ hs ht, ?_⟩
    · -- the expression has a value in the smaller box
      rintro hne cs rfl -
      rw [← Bool.not_eq_true, ← bound_eq_empty_iff ha hc]
      exact fun hempty => hvalueless ⟨nofun, hne, hempty⟩
    · refine iff_of_false (by simp) ?_
      rintro ⟨hreached, hne, hempty, -⟩
      exact hvalueless ⟨hreached, hne, hempty⟩

/-- The origin, on the line of a single variable. -/
def origin : Box := reachable [.point 0]

/-- The numbers from zero to one. -/
def unitSegment : Box := reachable [⟨.finite 0, .finite 1⟩]

/-- The constraint that the quotient of a number by `x` is not zero. -/
def quotientNonzero (n : Int) : Constraint := ⟨.div (.const n) (.var "x"), .ne⟩

/-- No number can be divided by zero, but as long as the quotient is not zero elsewhere, both boxes
are kept. -/
theorem constrain_le_constrain_iff_eight :
    WellFormed (Scope.ofNames ["x"]) origin ∧ WellFormed (Scope.ofNames ["x"]) unitSegment ∧
    le (Scope.ofNames ["x"]) origin unitSegment = .ok true ∧
    (quotientNonzero 8).expr.Within (Scope.ofNames ["x"]) ∧
    ∃ s t, constrain (Scope.ofNames ["x"]) origin (quotientNonzero 8) = .ok s ∧
      constrain (Scope.ofNames ["x"]) unitSegment (quotientNonzero 8) = .ok t ∧
      le (Scope.ofNames ["x"]) s t = .ok true := by
  have horigin : WellFormed (Scope.ofNames ["x"]) origin := by
    unfold WellFormed origin
    decide
  have hsegment : WellFormed (Scope.ofNames ["x"]) unitSegment := by
    unfold WellFormed unitSegment
    decide
  have hle : le (Scope.ofNames ["x"]) origin unitSegment = .ok true := by decide
  have hwithin : (quotientNonzero 8).expr.Within (Scope.ofNames ["x"]) := by
    unfold Arith.Within
    decide
  obtain ⟨s, t, included, hs, ht, hincluded, hiff⟩ :=
    constrain_le_constrain_iff horigin hsegment hle hwithin
  refine ⟨horigin, hsegment, hle, hwithin, s, t, hs, ht, ?_⟩
  cases included with
  | true => exact hincluded
  | false =>
    -- the quotients of eight are eight
    have hbound : bound (Scope.ofNames ["x"]) unitSegment (quotientNonzero 8).expr =
        .ok (.point 8) := by
      decide +kernel
    have hzero := (hiff.mp rfl).2.2.2
    rw [hbound] at hzero
    exact absurd hzero (by decide)

/-- Refinement is not monotone: the quotient of zero by `x` has no value at the origin, and zero is
its only value on the segment. -/
theorem constrain_not_monotone :
    WellFormed (Scope.ofNames ["x"]) origin ∧ WellFormed (Scope.ofNames ["x"]) unitSegment ∧
    le (Scope.ofNames ["x"]) origin unitSegment = .ok true ∧
    (quotientNonzero 0).expr.Within (Scope.ofNames ["x"]) ∧
    constrain (Scope.ofNames ["x"]) origin (quotientNonzero 0) = .ok origin ∧
    constrain (Scope.ofNames ["x"]) unitSegment (quotientNonzero 0) = .ok bottom ∧
    le (Scope.ofNames ["x"]) origin bottom = .ok false := by
  unfold WellFormed Arith.Within origin unitSegment
  decide +kernel

end Box

end RangeGuard
