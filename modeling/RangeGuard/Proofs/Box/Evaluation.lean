import RangeGuard.Proofs.Box.Reduction

/-!
# What evaluation says about stores

Expressions are evaluated in interval arithmetic, and three operations build on that: the bound of
an expression, the assignment of an expression to a variable, and the test whether a constraint is
satisfied. All of them speak about every store of a box. The value of an expression lies in its
bound wherever it has one, storing it leads into the box after the assignment, and a constraint that
is satisfied holds for it.

Assignment and forgetting touch one component. All other variables keep their intervals, unless the
value to be stored has an empty bound and the whole box collapses; `Box.Rewrites` says this once for
both operations.

`Box.evaluation_sound` collects these statements, together with the fact that on a well-formed box
and within its scope every one of the operations answers.
-/

namespace RangeGuard

namespace Box

variable {scope : Scope} {b t : Box} {x : String} {e : Arith} {i : Interval}

/-- The second box gives `x` the interval `i` and every other variable what the first one gives it,
unless it is bottom. -/
def Rewrites (scope : Scope) (x : String) (i : Interval) (b t : Box) : Prop :=
  t = bottom ∨ ∃ cs ds, b = reachable cs ∧ t = reachable ds ∧ cs.length = scope.size ∧
    ds.length = scope.size ∧ lookup scope ds x = i ∧ ∀ y, y ≠ x →
      lookup scope ds y = lookup scope cs y

/-- Replacing a component rewrites its variable. -/
private theorem rewrites_set {cs : List Interval} {k : Nat} (hlen : cs.length = scope.size)
    (hk : scope.position? x = some k) :
    Rewrites scope x i (reachable cs) (reachable (cs.set k i)) := by
  refine .inr ⟨cs, cs.set k i, rfl, rfl, hlen, by rw [List.length_set, hlen], ?_, ?_⟩
  · rw [lookup_set hlen hk, if_pos rfl]
  · intro y hy
    rw [lookup_set hlen hk, if_neg hy]

/-- Assignment stores the bound of the expression and leaves the other variables alone. -/
theorem rewrites_assign (hb : bound scope b e = .ok i) (ht : assign scope b x e = .ok t) :
    Rewrites scope x i b t := by
  obtain ⟨-, rfl⟩ | ⟨k, cs, hk, rfl, hlen, rfl⟩ := assign_cases ht
  · exact .inl rfl
  · -- the bound that was asked for is the interval that the assignment stores
    have hrange : i = e.range (lookup scope cs) := by
      obtain ⟨⟨⟩, hcheck, -⟩ := bind_eq_ok_iff.mp hb
      exact Except.ok.inj (hb.symm.trans
        (bound_reachable hlen (checkVariables_eq_ok_iff.mp hcheck)))
    subst hrange
    unfold ofComponents
    split
    · exact .inl rfl
    · exact rewrites_set hlen hk

/-- Forgetting drops the knowledge of one variable only. -/
theorem rewrites_forget (ht : forget scope b x = .ok t) : Rewrites scope x .full b t := by
  obtain ⟨-, rfl⟩ | ⟨k, cs, hk, rfl, hlen, rfl⟩ := forget_cases ht
  · exact .inl rfl
  · exact rewrites_set hlen hk

/-- In a well-formed box, for a variable and an expression of the scope, the bound of the
expression, the assignment of it to the variable, forgetting the variable and the test of a
constraint on the expression all answer. In every store of the box in which the expression has a
value, the value lies in the bound, storing it gives a store of the assigned box, and it satisfies
each constraint that tests as satisfied. Storing any integer at all gives a store of the box that
has forgotten the variable. No other variable changes its interval. -/
theorem evaluation_sound (hb : WellFormed scope b) (hx : x ∈ scope.names) (he : e.Within scope) :
    ∃ i assigned forgotten, bound scope b e = .ok i ∧ assign scope b x e = .ok assigned ∧
      forget scope b x = .ok forgotten ∧
      (∀ σ n, Contains scope b σ → e.eval? σ = some n →
        n ∈ i ∧ Contains scope assigned (σ.set x n)) ∧
      (∀ σ n, Contains scope b σ → Contains scope forgotten (σ.set x n)) ∧
      Rewrites scope x i b assigned ∧ Rewrites scope x .full b forgotten ∧
      ∀ relation, ∃ answer, satisfies scope b ⟨e, relation⟩ = .ok answer ∧
        (answer = true → ∀ σ n, Contains scope b σ → e.eval? σ = some n → relation.Holds n) := by
  obtain ⟨i, hi⟩ := exists_bound hb.proper he
  obtain ⟨assigned, hassigned⟩ := exists_assign hb.proper hx he
  obtain ⟨forgotten, hforgotten⟩ := exists_forget hb.proper hx
  refine ⟨i, assigned, forgotten, hi, hassigned, hforgotten, ?_, ?_, rewrites_assign hi hassigned,
    rewrites_forget hforgotten, ?_⟩
  · intro σ n hσ hn
    exact ⟨mem_bound hi hσ hn, contains_assign hassigned hσ hn⟩
  · intro σ n hσ
    exact contains_forget hforgotten hσ n
  · intro relation
    obtain ⟨answer, hanswer⟩ := exists_satisfies (c := ⟨e, relation⟩) hb.proper he
    refine ⟨answer, hanswer, ?_⟩
    rintro rfl σ n hσ hn
    exact holds_of_satisfies (c := ⟨e, relation⟩) hi hanswer (mem_bound hi hσ hn)

/-- Nine more than the quotient of `x` and `y`. -/
def quotientPlusNine : Arith := .add (.div (.var "x") (.var "y")) (.const 9)

/-- A dividend and a divisor that may both have either sign. -/
def aroundZero : Box := reachable [⟨.finite (-7), .finite 8⟩, ⟨.finite (-2), .finite 3⟩]

/-- The quotient lies between `-8` and `8` wherever the divisor is not zero. -/
theorem evaluation_sound_around_zero :
    WellFormed (Scope.ofNames ["x", "y"]) aroundZero ∧ "x" ∈ (Scope.ofNames ["x", "y"]).names ∧
    quotientPlusNine.Within (Scope.ofNames ["x", "y"]) ∧
    ∀ σ n, Contains (Scope.ofNames ["x", "y"]) aroundZero σ → quotientPlusNine.eval? σ = some n →
      Relation.gt.Holds n ∧ Contains (Scope.ofNames ["x", "y"])
        (reachable [⟨.finite 1, .finite 17⟩, ⟨.finite (-2), .finite 3⟩]) (σ.set "x" n) := by
  have hb : WellFormed (Scope.ofNames ["x", "y"]) aroundZero := by
    unfold WellFormed aroundZero
    decide
  have hx : "x" ∈ (Scope.ofNames ["x", "y"]).names := by decide
  have he : quotientPlusNine.Within (Scope.ofNames ["x", "y"]) := by
    unfold Arith.Within
    decide
  refine ⟨hb, hx, he, ?_⟩
  obtain ⟨i, assigned, forgotten, -, hassigned, -, hsound, -, -, -, hsatisfied⟩ :=
    evaluation_sound hb hx he
  have hassign : assign (Scope.ofNames ["x", "y"]) aroundZero "x" quotientPlusNine =
      .ok (reachable [⟨.finite 1, .finite 17⟩, ⟨.finite (-2), .finite 3⟩]) := by decide +kernel
  have hsatisfies : satisfies (Scope.ofNames ["x", "y"]) aroundZero ⟨quotientPlusNine, .gt⟩ =
      .ok true := by decide +kernel
  obtain rfl := Except.ok.inj (hassign.symm.trans hassigned)
  obtain ⟨answer, hanswer, hholds⟩ := hsatisfied .gt
  obtain rfl := Except.ok.inj (hsatisfies.symm.trans hanswer)
  intro σ n hσ hn
  exact ⟨hholds rfl σ n hσ hn, (hsound σ n hσ hn).2⟩

end Box

end RangeGuard
