import RangeGuard.Proofs.Analysis.Ordered
import RangeGuard.Proofs.Box.WellFormed
import RangeGuard.Proofs.Interval.Exact

/-!
# Refinement as a reduction

Refinement by a constraint only ever takes stores away, and it takes none away in which the
constraint holds. That is so for every expression: one that is not linear leaves the components
alone, and a linear one makes them smaller term by term. So a constraint that a box satisfies
already gives the box back.

For the last step boxes have to be compared by their stores. Well-formed boxes are told apart by
them: each component has members, and the members of one component can be chosen without regard to
the others, so inclusion of stores is inclusion of boxes (`Box.le_of_forall_contains`).

`Box.refine?_cases` is the inversion lemma for refinement. Everything later that opens a refinement
goes through it, here and in the files on hulls, comparison and renaming.
-/

namespace RangeGuard

namespace Box

variable {scope : Scope} {a b t : Box} {cs ds refined : List Interval} {σ : Store} {x : String}
  {n : Int} {c : Constraint}

/-! ## §1 Stores of a well-formed box -/

theorem WellFormed.canonical_lookup (h : WellFormed scope (reachable cs)) (x : String) :
    (lookup scope cs x).Canonical :=
  Box.canonical_lookup h.canonical x

theorem WellFormed.isEmpty_lookup (h : WellFormed scope (reachable cs)) (x : String) :
    (lookup scope cs x).isEmpty = false :=
  Box.isEmpty_lookup h.proper.2 x

/-- A well-formed box that is not bottom has a store. -/
theorem WellFormed.exists_contains (h : WellFormed scope (reachable cs)) :
    ∃ σ, Contains scope (reachable cs) σ := by
  have hmem : ∀ x, ∃ n, n ∈ lookup scope cs x := fun x =>
    Interval.exists_mem_of_canonical (h.canonical_lookup x) (h.isEmpty_lookup x)
  -- one member for each variable, chosen independently
  choose σ hσ using hmem
  exact ⟨σ, contains_iff.mpr ⟨h.1, hσ⟩⟩

/-- The value of one variable can be exchanged for every other one of its interval. -/
theorem contains_store_set (h : Contains scope (reachable cs) σ) (hn : n ∈ lookup scope cs x) :
    Contains scope (reachable cs) (σ.set x n) := by
  obtain ⟨hlen, hmem⟩ := contains_iff.mp h
  refine contains_iff.mpr ⟨hlen, fun y => ?_⟩
  unfold Store.set
  split
  · rename_i hyx
    exact hyx ▸ hn
  · exact hmem y

/-- Inclusion of well-formed boxes is inclusion of their stores. -/
theorem le_of_forall_contains (ha : WellFormed scope a) (hb : WellFormed scope b)
    (h : ∀ σ, Contains scope a σ → Contains scope b σ) : le scope a b = .ok true := by
  cases a with
  | bottom => exact bottom_le hb.proper
  | reachable cs =>
    obtain ⟨σ, hσ⟩ := ha.exists_contains
    cases b with
    | bottom => exact (h σ hσ).elim
    | reachable ds =>
      apply (le_reachable_iff ha.1 hb.1).mpr
      intro x
      apply Interval.le_of_forall_mem (ha.canonical_lookup x)
      intro n hn
      -- some store of the first box has the value `n` at `x`
      have hset := (contains_iff.mp (h _ (contains_store_set hσ hn))).2 x
      simpa [Store.set] using hset

/-! ## §2 What a refinement does -/

/-- A refinement that leaves something has passed the test on the range of the expression. A linear
form is then tightened or freed from its zero, and an expression without one changes nothing. -/
theorem refine?_cases (h : refine? scope cs c = some refined) :
    (∃ region, region? c.relation = some region ∧
      ((c.expr.range (lookup scope cs)).meet region).isEmpty = false ∧
      refined = c.expr.linear?.elim cs fun f => tighten scope f region cs) ∨
    (c.relation = .ne ∧ c.expr.range (lookup scope cs) ≠ .point 0 ∧
      refined = c.expr.linear?.elim cs fun f => exclude scope f cs) := by
  unfold refine? at h
  dsimp only at h
  -- only a disequality has no region
  cases hregion : region? c.relation with
  | some region =>
    simp only [hregion] at h
    split at h
    · cases h
    · rename_i hmeet
      refine .inl ⟨region, rfl, Bool.not_eq_true _ ▸ hmeet, ?_⟩
      cases hlinear : c.expr.linear? <;> simp_all
  | none =>
    simp only [hregion] at h
    split at h
    · cases h
    · rename_i hzero
      refine .inr ⟨eq_ne_of_region? hregion, hzero, ?_⟩
      cases hlinear : c.expr.linear? <;> simp_all

/-- Steps that each make components smaller make them smaller together. -/
theorem lookup_foldl_le {terms : List (String × Int)}
    {step : List Interval → String × Int → List Interval}
    (hlength : ∀ cs term, (step cs term).length = cs.length)
    (hstep : ∀ cs term, cs.length = scope.size →
      ∀ y, lookup scope (step cs term) y ≤ lookup scope cs y)
    (hcs : cs.length = scope.size) (y : String) :
    lookup scope (terms.foldl step cs) y ≤ lookup scope cs y := by
  induction terms generalizing cs with
  | nil => exact le_rfl
  | cons term terms ih =>
    rw [List.foldl_cons]
    -- the later steps act on smaller components and make these smaller still
    exact (ih ((hlength cs term).trans hcs)).trans (hstep cs term hcs y)

/-- Solving for one variable makes its component smaller and leaves the others alone. -/
theorem tightenTerm_le (f : LinearForm) (region : Interval) (hcs : cs.length = scope.size)
    (term : String × Int) (y : String) :
    lookup scope (tightenTerm scope f region cs term) y ≤ lookup scope cs y :=
  lookup_update_le hcs Interval.meet_le_left y

theorem lookup_tightenRound_le (f : LinearForm) (region : Interval) (hcs : cs.length = scope.size)
    (y : String) : lookup scope (tightenRound scope f region cs) y ≤ lookup scope cs y :=
  lookup_foldl_le (length_tightenTerm f region)
    (fun _ term hcs => tightenTerm_le f region hcs term) hcs y

/-- Tightening makes components smaller. -/
theorem lookup_tighten_le (f : LinearForm) (region : Interval) (hcs : cs.length = scope.size)
    (y : String) : lookup scope (tighten scope f region cs) y ≤ lookup scope cs y :=
  (lookup_tightenRound_le f region ((length_tightenRound f region cs).trans hcs) y).trans
    (lookup_tightenRound_le f region hcs y)

/-- So does excluding the zero of a form. -/
theorem lookup_exclude_le (f : LinearForm) (hcs : cs.length = scope.size) (y : String) :
    lookup scope (exclude scope f cs) y ≤ lookup scope cs y :=
  lookup_foldl_le (length_excludeTerm f) (fun _ term hcs => excludeTerm_le f hcs term) hcs y

/-- A refinement makes components smaller. -/
private theorem lookup_refine?_le (hcs : cs.length = scope.size)
    (h : refine? scope cs c = some refined)
    (y : String) : lookup scope refined y ≤ lookup scope cs y := by
  obtain ⟨region, -, -, rfl⟩ | ⟨-, -, rfl⟩ := refine?_cases h
  · cases c.expr.linear? with
    | none => exact le_rfl
    | some f => exact lookup_tighten_le f region hcs y
  · cases c.expr.linear? with
    | none => exact le_rfl
    | some f => exact lookup_exclude_le f hcs y

/-- A refined box lies in the box. -/
theorem constrain_le (hb : Proper scope b) (ht : constrain scope b c = .ok t) :
    le scope t b = .ok true := by
  obtain ⟨-, rfl⟩ | ⟨cs, rfl, hlen, ⟨-, rfl⟩ | ⟨refined, hrefined, rfl⟩⟩ := constrain_cases ht
  · exact bottom_le hb
  · exact bottom_le hb
  · rw [← ofComponents_eq_reachable hb.2]
    exact ofComponents_le_ofComponents ⟨(length_of_refine? hrefined).trans hlen, hlen,
      fun _ => lookup_refine?_le hlen hrefined⟩

/-! ## §3 Satisfied constraints -/

/-- A relation holds for all values of its region. -/
theorem holds_of_mem_region {r : Relation} {region : Interval} (hregion : region? r = some region)
    (h : n ∈ region) : r.Holds n := by
  cases r with
  | eq => exact Interval.mem_point.mp (Option.some.inj hregion ▸ h)
  | ne => cases hregion
  | ge | gt =>
    obtain rfl := Option.some.inj hregion
    exact Bound.finite_le_finite.mp (Interval.mem_between.mp h).1

/-- The bound of an expression within the scope is its range over the components. -/
theorem bound_reachable (hlen : cs.length = scope.size) {e : Arith} (he : e.Within scope) :
    bound scope (reachable cs) e = .ok (e.range (lookup scope cs)) := by
  rw [bound, checkVariables_eq_ok he, components?, if_pos hlen]
  rfl

/-- Queries about expressions within the scope answer. -/
theorem exists_bound (hb : Proper scope b) {e : Arith} (he : e.Within scope) :
    ∃ i, bound scope b e = .ok i := by
  obtain ⟨o, ho⟩ := hb.exists_components
  rw [bound, checkVariables_eq_ok he, ho]
  cases o <;> exact ⟨_, rfl⟩

/-- The test whether a constraint is satisfied answers for expressions within the scope. -/
theorem exists_satisfies (hb : Proper scope b) (hc : c.expr.Within scope) :
    ∃ answer, satisfies scope b c = .ok answer := by
  obtain ⟨i, hi⟩ := exists_bound hb hc
  rw [satisfies, hi]
  show ∃ answer, (if i.isEmpty then _ else _) = Except.ok answer
  split
  · exact ⟨_, rfl⟩
  · cases region? c.relation <;> exact ⟨_, rfl⟩

/-- A satisfied constraint holds for every value in the bound of its expression. -/
theorem holds_of_satisfies {i : Interval} (hi : bound scope b c.expr = .ok i)
    (h : satisfies scope b c = .ok true) (hn : n ∈ i) : c.relation.Holds n := by
  rw [satisfies, hi] at h
  change (if i.isEmpty then _ else _) = Except.ok true at h
  -- the bound has a member, so the constraint is not satisfied for lack of values
  rw [if_neg (by rw [Interval.isEmpty_eq_false_of_mem hn]; exact Bool.false_ne_true)] at h
  cases hregion : region? c.relation with
  | some region =>
    simp only [hregion] at h
    have hle : i ≤ region := of_decide_eq_true (Except.ok.inj h)
    exact holds_of_mem_region hregion (Interval.mem_of_le hle hn)
  | none =>
    simp only [hregion] at h
    have hzero : (0 : Int) ∉ i := by simpa [pure, Except.pure] using h
    rw [eq_ne_of_region? hregion]
    rintro rfl
    exact hzero hn

/-- The test on the range passes if some value in the range satisfies the constraint. -/
theorem exists_refine?_of_mem (hn : n ∈ c.expr.range (lookup scope cs))
    (hholds : c.relation.Holds n) :
    ∃ refined, refine? scope cs c = some refined := by
  unfold refine?
  dsimp only
  cases hregion : region? c.relation with
  | some region =>
    have hmeet := Interval.isEmpty_eq_false_of_mem
      (Interval.mem_meet.mpr ⟨hn, mem_region hregion hholds⟩)
    dsimp only
    rw [hmeet, if_neg Bool.false_ne_true]
    cases c.expr.linear? <;> exact ⟨_, rfl⟩
  | none =>
    rw [eq_ne_of_region? hregion] at hholds
    -- a range that is zero alone has no value other than zero
    have hnot : c.expr.range (lookup scope cs) ≠ .point 0 := by
      intro hpoint
      exact hholds (Interval.mem_point.mp (hpoint ▸ hn))
    dsimp only
    rw [if_neg hnot]
    cases c.expr.linear? <;> exact ⟨_, rfl⟩

/-- A constraint that a box satisfies, on an expression that has values there, refines nothing. -/
theorem constrain_eq_self {i : Interval} (hb : WellFormed scope b) (hc : c.expr.Within scope)
    (ht : constrain scope b c = .ok t) (hi : bound scope b c.expr = .ok i)
    (hne : i.isEmpty = false) (h : satisfies scope b c = .ok true) : t = b := by
  obtain ⟨rfl, rfl⟩ | ⟨cs, rfl, hlen, hrefined⟩ := constrain_cases ht
  · rfl
  have hrange : i = c.expr.range (lookup scope cs) :=
    Except.ok.inj (hi.symm.trans (bound_reachable hlen hc))
  have hcanonical : i.Canonical := hrange ▸ Arith.canonical_range hb.canonical_lookup c.expr
  -- a value in the range shows that the first test of the refinement is passed
  obtain ⟨n, hn⟩ := Interval.exists_mem_of_canonical hcanonical hne
  obtain ⟨refined, hsome⟩ := exists_refine?_of_mem (hrange ▸ hn) (holds_of_satisfies hi h hn)
  cases hlinear : c.expr.linear? with
  | none =>
    -- the components are left alone
    obtain ⟨hnone, -⟩ | ⟨refined', hsome', rfl⟩ := hrefined
    · rw [hsome] at hnone
      cases hnone
    · have hsame : refined' = cs := by
        rcases refine?_cases hsome' with ⟨_, -, -, hsame⟩ | ⟨-, -, hsame⟩
        · simpa [hlinear] using hsame
        · simpa [hlinear] using hsame
      rw [hsame, ofComponents_eq_reachable hb.proper.2]
  | some f =>
    -- the constraint holds in every store of the box
    have ht' := (preserves_wellFormed scope).constrain hb ht
    apply le_antisymm ht'.proper hb.proper (constrain_le hb.proper ht)
    apply le_of_forall_contains hb ht'
    intro σ hσ
    have heval := Arith.eval?_of_linear? σ hlinear
    exact contains_constrain ht hσ ⟨_, heval, holds_of_satisfies hi h (mem_bound hi hσ heval)⟩

/-- Refinement by a constraint on any expression answers with a well-formed box inside the given
one. The result keeps every store in which the expression has a value that satisfies the constraint.
If the range of the expression is not empty and the constraint is satisfied already, the result is
the box itself. -/
theorem constrain_reduces (hb : WellFormed scope b) (hc : c.expr.Within scope) :
    ∃ t, constrain scope b c = .ok t ∧ WellFormed scope t ∧ le scope t b = .ok true ∧
      (∀ σ, Contains scope b σ → c.Holds σ → Contains scope t σ) ∧
      ∃ i answer, bound scope b c.expr = .ok i ∧ satisfies scope b c = .ok answer ∧
        (i.isEmpty = false → answer = true → t = b) := by
  obtain ⟨t, ht⟩ := exists_constrain hb.proper hc
  obtain ⟨i, hi⟩ := exists_bound hb.proper hc
  obtain ⟨answer, hanswer⟩ := exists_satisfies hb.proper hc
  refine ⟨t, ht, (preserves_wellFormed scope).constrain hb ht, constrain_le hb.proper ht,
    fun σ hσ hholds => contains_constrain ht hσ hholds, i, answer, hi, hanswer, ?_⟩
  rintro hne rfl
  exact constrain_eq_self hb hc ht hi hne hanswer

/-- The constraint that `2 * x + 3 * y` is at least `13`. -/
def atLeastThirteen : Constraint :=
  ⟨.sub (.add (.mul (.const 2) (.var "x")) (.mul (.const 3) (.var "y"))) (.const 13), .ge⟩

/-- From two on for `x` and three on for `y`, which satisfies the constraint tightly. -/
def corner : Box := reachable [⟨.finite 2, .finite 5⟩, ⟨.finite 3, .posInf⟩]

/-- The box satisfies the constraint, and refinement gives it back. -/
theorem constrain_reduces_corner :
    WellFormed (Scope.ofNames ["x", "y"]) corner ∧
    atLeastThirteen.expr.Within (Scope.ofNames ["x", "y"]) ∧
    constrain (Scope.ofNames ["x", "y"]) corner atLeastThirteen = .ok corner := by
  have hb : WellFormed (Scope.ofNames ["x", "y"]) corner := by
    unfold WellFormed corner
    decide
  have hc : atLeastThirteen.expr.Within (Scope.ofNames ["x", "y"]) := by
    unfold Arith.Within
    decide
  refine ⟨hb, hc, ?_⟩
  obtain ⟨t, ht, -, -, -, i, answer, hi, hanswer, hsame⟩ := constrain_reduces hb hc
  -- the range of the expression starts at zero
  have hbound : bound (Scope.ofNames ["x", "y"]) corner atLeastThirteen.expr =
      .ok ⟨.finite 0, .posInf⟩ := by decide +kernel
  have hsatisfied : satisfies (Scope.ofNames ["x", "y"]) corner atLeastThirteen = .ok true := by
    decide +kernel
  obtain rfl := Except.ok.inj (hi.symm.trans hbound)
  rw [ht, hsame (by decide) (Except.ok.inj (hanswer.symm.trans hsatisfied))]

end Box

end RangeGuard
