import RangeGuard.Box.Refine
import RangeGuard.Proofs.Arith.LinearForm
import RangeGuard.Proofs.Box.Lookup
import RangeGuard.Proofs.Domain.Soundness
import RangeGuard.Proofs.Interval.Enclosure

/-!
# Soundness of boxes

A box stands for the stores whose values lie in its components. Every operation on boxes that
answers keeps the stores that it has to keep, whatever the ends of the components are. Neither
canonicity nor nonempty components are assumed anywhere in this file.

## Layers

- *Expressions* (§1). The value of an expression lies in its range, by induction over the expression
  and the enclosure of each operator.
- *Operations* (§2, §3). Each operation is first opened by an inversion lemma (`pointwise_cases`,
  `assign_cases`, `forget_cases`, `constrain_cases`) that says what an answer can look like. Later
  files cite these lemmas and never unfold the operations again.
- *Refinement* (§4). This is the step that needs an argument. Solving `k * x + rest ∈ region` for
  `x` divides by `k`, which is not zero because the form is normal, and the rest of the form has no
  other term in `x`, because the form is sorted.
- *The domain* (§5). The laws of a sound domain are the statements of the earlier sections, read
  through valuations of the scope.
-/

namespace RangeGuard

/-! ## §1 Ranges of expressions -/

/-- The value of an expression lies in its range if the values of the variables lie in theirs. -/
theorem Arith.mem_range {σ : Store} {ρ : String → Interval} (h : ∀ x, σ x ∈ ρ x) {e : Arith}
    {n : Int} (he : e.eval? σ = some n) : n ∈ e.range ρ := by
  induction e generalizing n with
  | var x => exact Option.some.inj he ▸ h x
  | const m => exact Option.some.inj he ▸ Interval.mem_point.mpr rfl
  | add a b iha ihb =>
    simp only [eval?, bind, Option.bind_eq_some_iff, pure, Option.some.injEq] at he
    obtain ⟨x, hx, y, hy, rfl⟩ := he
    exact Interval.mem_add (iha hx) (ihb hy)
  | sub a b iha ihb =>
    simp only [eval?, bind, Option.bind_eq_some_iff, pure, Option.some.injEq] at he
    obtain ⟨x, hx, y, hy, rfl⟩ := he
    exact Interval.mem_sub (iha hx) (ihb hy)
  | mul a b iha ihb =>
    simp only [eval?, bind, Option.bind_eq_some_iff, pure, Option.some.injEq] at he
    obtain ⟨x, hx, y, hy, rfl⟩ := he
    exact Interval.mem_mul (iha hx) (ihb hy)
  | div a b iha ihb =>
    simp only [eval?, bind, Option.bind_eq_some_iff] at he
    obtain ⟨x, hx, y, hy, hquotient⟩ := he
    -- an expression that divides by zero has no value, so nothing is claimed there
    split at hquotient
    · cases hquotient
    · rename_i hne
      exact Option.some.inj hquotient ▸ Interval.mem_tdiv (iha hx) (ihb hy) hne
  | rem a b iha ihb =>
    simp only [eval?, bind, Option.bind_eq_some_iff] at he
    obtain ⟨x, hx, y, hy, hremainder⟩ := he
    split at hremainder
    · cases hremainder
    · rename_i hne
      exact Option.some.inj hremainder ▸ Interval.mem_tmod (iha hx) (ihb hy) hne
  | neg a iha =>
    simp only [eval?, bind, Option.bind_eq_some_iff, pure, Option.some.injEq] at he
    obtain ⟨x, hx, rfl⟩ := he
    exact Interval.mem_neg (iha hx)

namespace Box

variable {scope : Scope} {a b t : Box} {cs ds : List Interval} {σ : Store} {x : String} {n : Int}

/-! ## §2 Order, join and widening -/

/-- A box shows its components if it is bottom or they fit the scope. -/
theorem components?_eq_ok_iff {o : Option (List Interval)} : components? scope b = .ok o ↔
    (b = bottom ∧ o = none) ∨ ∃ cs, b = reachable cs ∧ cs.length = scope.size ∧ o = some cs := by
  cases b with
  | bottom => simp [components?, eq_comm]
  | reachable cs =>
    rw [components?]
    by_cases hlen : cs.length = scope.size
    · simp [hlen, eq_comm]
    · simp [hlen]

/-- Two boxes are combined component by component, unless one of them is bottom. -/
theorem pointwise_cases {f : Interval → Interval → Interval} (h : pointwise scope f a b = .ok t) :
    (a = bottom ∧ t = b) ∨ (b = bottom ∧ t = a) ∨
    ∃ cs ds, a = reachable cs ∧ b = reachable ds ∧ cs.length = scope.size ∧
      ds.length = scope.size ∧ t = ofComponents (List.zipWith f cs ds) := by
  obtain ⟨_, ha, h⟩ := bind_eq_ok_iff.mp h
  obtain ⟨_, hb, h⟩ := bind_eq_ok_iff.mp h
  obtain ⟨rfl, rfl⟩ | ⟨cs, rfl, hcs, rfl⟩ := components?_eq_ok_iff.mp ha
  · exact .inl ⟨rfl, (Except.ok.inj h).symm⟩
  · obtain ⟨rfl, rfl⟩ | ⟨ds, rfl, hds, rfl⟩ := components?_eq_ok_iff.mp hb
    · exact .inr (.inl ⟨rfl, (Except.ok.inj h).symm⟩)
    · exact .inr (.inr ⟨cs, ds, rfl, rfl, hcs, hds, (Except.ok.inj h).symm⟩)

private theorem contains_top (scope : Scope) (σ : Store) : Contains scope (top scope) σ := by
  refine ⟨List.length_replicate, fun p hp => ?_⟩
  rw [List.eq_of_mem_replicate (List.of_mem_zip hp).2]
  exact Interval.mem_full

/-- A confirmed inclusion loses no store. -/
theorem contains_of_le (hle : le scope a b = .ok true) (h : Contains scope a σ) :
    Contains scope b σ := by
  obtain ⟨_, ha, hle⟩ := bind_eq_ok_iff.mp hle
  obtain ⟨_, hb, hle⟩ := bind_eq_ok_iff.mp hle
  obtain ⟨rfl, rfl⟩ | ⟨cs, rfl, hcs, rfl⟩ := components?_eq_ok_iff.mp ha
  · exact h.elim
  obtain ⟨rfl, rfl⟩ | ⟨ds, rfl, hds, rfl⟩ := components?_eq_ok_iff.mp hb
  · cases hle
  have hall : ∀ p ∈ cs.zip ds, p.1 ≤ p.2 := by
    simpa only [pure, Except.pure, Except.ok.injEq, List.all_eq_true, decide_eq_true_eq] using hle
  -- the test has compared the components in pairs, and the look-ups of a name are such a pair
  refine contains_of_forall_mem hds fun x hx => ?_
  exact Interval.mem_of_le (hall _ (lookup_mem_zip hcs hds hx)) ((contains_iff.mp h).2 x)

/-- Two boxes combined by an operation that keeps the members of both intervals keep the stores of
both boxes. -/
theorem contains_pointwise {f : Interval → Interval → Interval}
    (hf : ∀ {n : Int} {i j : Interval}, n ∈ i ∨ n ∈ j → n ∈ f i j)
    (ht : pointwise scope f a b = .ok t) (h : Contains scope a σ ∨ Contains scope b σ) :
    Contains scope t σ := by
  obtain ⟨rfl, rfl⟩ | ⟨rfl, rfl⟩ | ⟨cs, ds, rfl, rfl, hcs, hds, rfl⟩ := pointwise_cases ht
  · exact h.resolve_left id
  · exact h.resolve_right id
  · rw [contains_ofComponents]
    refine contains_of_forall_mem (by simp [hcs, hds]) fun x hx => ?_
    -- each look-up is a combination of two intervals, one of which has the value
    rw [lookup_zipWith f hcs hds hx]
    exact hf (h.imp (fun hc => (contains_iff.mp hc).2 x) fun hd => (contains_iff.mp hd).2 x)

private theorem contains_join (ht : join scope a b = .ok t)
    (h : Contains scope a σ ∨ Contains scope b σ) :
    Contains scope t σ :=
  contains_pointwise (fun hn => hn.elim Interval.mem_join_left Interval.mem_join_right) ht h

private theorem contains_widen (ht : widen scope a b = .ok t)
    (h : Contains scope a σ ∨ Contains scope b σ) :
    Contains scope t σ :=
  contains_pointwise (fun hn => hn.elim Interval.mem_widen_left Interval.mem_widen_right) ht h

/-! ## §3 Assignment and queries -/

theorem position_eq_ok_iff {k : Nat} :
    position scope x = .ok k ↔ scope.position? x = some k := by
  unfold position
  cases scope.position? x with
  | none => simp
  | some i => simp

/-- Assignment replaces one component by the range of the expression. -/
theorem assign_cases {e : Arith} (h : assign scope b x e = .ok t) :
    (b = bottom ∧ t = bottom) ∨ ∃ k cs, scope.position? x = some k ∧ b = reachable cs ∧
      cs.length = scope.size ∧ t = ofComponents (cs.set k (e.range (lookup scope cs))) := by
  obtain ⟨k, hk, h⟩ := bind_eq_ok_iff.mp h
  obtain ⟨_, -, h⟩ := bind_eq_ok_iff.mp h
  obtain ⟨_, hb, h⟩ := bind_eq_ok_iff.mp h
  obtain ⟨rfl, rfl⟩ | ⟨cs, rfl, hlen, rfl⟩ := components?_eq_ok_iff.mp hb
  · exact .inl ⟨rfl, (Except.ok.inj h).symm⟩
  · exact .inr ⟨k, cs, position_eq_ok_iff.mp hk, rfl, hlen, (Except.ok.inj h).symm⟩

/-- Storing the value of an expression leads into the box after the assignment. -/
theorem contains_assign {e : Arith} (ht : assign scope b x e = .ok t) (h : Contains scope b σ)
    (he : e.eval? σ = some n) : Contains scope t (σ.set x n) := by
  obtain ⟨rfl, -⟩ | ⟨k, cs, hk, rfl, -, rfl⟩ := assign_cases ht
  · exact h.elim
  · -- the collapse loses no store, so the components may be looked at directly
    rw [contains_ofComponents]
    exact contains_set h hk (Arith.mem_range (contains_iff.mp h).2 he)

/-- Forgetting replaces one component by the full interval. -/
theorem forget_cases (h : forget scope b x = .ok t) :
    (b = bottom ∧ t = bottom) ∨ ∃ k cs, scope.position? x = some k ∧ b = reachable cs ∧
      cs.length = scope.size ∧ t = reachable (cs.set k .full) := by
  obtain ⟨k, hk, h⟩ := bind_eq_ok_iff.mp h
  obtain ⟨_, hb, h⟩ := bind_eq_ok_iff.mp h
  obtain ⟨rfl, rfl⟩ | ⟨cs, rfl, hlen, rfl⟩ := components?_eq_ok_iff.mp hb
  · exact .inl ⟨rfl, (Except.ok.inj h).symm⟩
  · exact .inr ⟨k, cs, position_eq_ok_iff.mp hk, rfl, hlen, (Except.ok.inj h).symm⟩

/-- Storing any value leads into the box that has forgotten the variable. -/
theorem contains_forget (ht : forget scope b x = .ok t) (h : Contains scope b σ) (n : Int) :
    Contains scope t (σ.set x n) := by
  obtain ⟨rfl, -⟩ | ⟨k, cs, hk, rfl, -, rfl⟩ := forget_cases ht
  · exact h.elim
  · exact contains_set h hk Interval.mem_full

/-- The value of an expression lies in its bound. -/
theorem mem_bound {e : Arith} {i : Interval} (hi : bound scope b e = .ok i)
    (h : Contains scope b σ) (he : e.eval? σ = some n) : n ∈ i := by
  obtain ⟨_, -, hi⟩ := bind_eq_ok_iff.mp hi
  obtain ⟨_, hb, hi⟩ := bind_eq_ok_iff.mp hi
  obtain ⟨rfl, rfl⟩ | ⟨cs, rfl, -, rfl⟩ := components?_eq_ok_iff.mp hb
  · exact h.elim
  · obtain rfl := Except.ok.inj hi
    exact Arith.mem_range (contains_iff.mp h).2 he

/-! ## §4 Refinement by a constraint -/

/-- What a fold over the terms collects is around the sum of all terms but those of `x`. -/
private theorem mem_foldl_terms (h : ∀ y, σ y ∈ lookup scope cs y) (terms : List (String × Int))
    {acc : Interval} (hn : n ∈ acc) :
    LinearForm.sumOf σ (LinearForm.termsExcept x terms) + n ∈ terms.foldl
      (fun rest term => if term.1 = x then rest
        else rest + Interval.point term.2 * lookup scope cs term.1) acc := by
  induction terms generalizing n acc with
  | nil => simpa [LinearForm.termsExcept] using hn
  | cons term terms ih =>
    rw [List.foldl_cons]
    by_cases hterm : term.1 = x
    -- the fold and the sum skip the same terms
    · rw [if_pos hterm, LinearForm.termsExcept, List.filter_cons_of_neg (by simpa using hterm)]
      exact ih hn
    · rw [if_neg hterm, LinearForm.termsExcept, List.filter_cons_of_pos (by simpa using hterm),
        LinearForm.sumOf_cons]
      have hproduct := Interval.mem_mul (Interval.mem_point.mpr (rfl : term.2 = term.2)) (h term.1)
      have hsum := ih (Interval.mem_add hn hproduct)
      rwa [show ∀ p q r : Int, p + q + r = q + (r + p) by omega]

/-- The rest of a form lies in its range. -/
theorem mem_restRange (h : Contains scope (reachable cs) σ) (f : LinearForm) (x : String) :
    LinearForm.sumOf σ (LinearForm.termsExcept x f.terms) + f.constant ∈
      restRange scope cs f x :=
  mem_foldl_terms (contains_iff.mp h).2 f.terms (Interval.mem_point.mpr rfl)

/-- Solving for one variable keeps every store in which the form has a value in the region. -/
private theorem contains_tightenTerm {f : LinearForm} (hf : f.Normal) {region : Interval}
    (hvalue : f.value σ ∈ region) {term : String × Int} (hterm : term ∈ f.terms)
    (h : Contains scope (reachable cs) σ) :
    Contains scope (reachable (tightenTerm scope f region cs term)) σ := by
  obtain ⟨x, k⟩ := term
  refine contains_update h (Interval.mem_meet.mpr ⟨(contains_iff.mp h).2 x, ?_⟩)
  -- `k * x` is the value of the form less the rest, and `k` is not zero
  refine Interval.mem_divExact (hf.nonzero _ hterm) ?_
  have htarget := Interval.mem_sub hvalue (mem_restRange h f x)
  rwa [LinearForm.value_eq_term_add_rest hf hterm, Int.add_sub_cancel] at htarget

/-- Trimming takes away the excluded value only. -/
private theorem mem_trimEnd {i : Interval} {m : Int} (h : m ∈ i) (hne : m ≠ n) :
    m ∈ trimEnd i n := by
  obtain ⟨hlow, hhigh⟩ := h
  unfold trimEnd
  split
  · rename_i heq
    -- the excluded value is the lower end, and the next one is the new end
    rw [heq, Bound.finite_le_finite] at hlow
    exact Interval.mem_between.mpr ⟨Bound.finite_le_finite.mpr (by omega), hhigh⟩
  · split
    · rename_i heq
      rw [heq, Bound.finite_le_finite] at hhigh
      exact Interval.mem_between.mpr ⟨hlow, Bound.finite_le_finite.mpr (by omega)⟩
    · exact ⟨hlow, hhigh⟩

private theorem eq_of_constant? {i : Interval} {m : Int} (hi : i.constant? = some m) (h : n ∈ i) :
    n = m := by
  rw [Interval.constant?_eq_some_iff.mp hi] at h
  exact Interval.mem_point.mp h

/-- Excluding the one value at which a form is zero keeps every store in which it is not. -/
theorem contains_excludeTerm {f : LinearForm} (hf : f.Normal) (hvalue : f.value σ ≠ 0)
    {term : String × Int} (hterm : term ∈ f.terms) (h : Contains scope (reachable cs) σ) :
    Contains scope (reachable (excludeTerm scope f cs term)) σ := by
  obtain ⟨x, k⟩ := term
  unfold excludeTerm
  cases hrest : (restRange scope cs f x).constant? with
  | none => exact h
  | some rest =>
    dsimp only
    split
    · rename_i hdvd
      refine contains_update h (mem_trimEnd ((contains_iff.mp h).2 x) ?_)
      -- at the excluded value the form would be zero
      intro hx
      apply hvalue
      rw [LinearForm.value_eq_term_add_rest hf hterm,
        eq_of_constant? hrest (mem_restRange h f x), hx]
      have hproduct := Int.mul_tdiv_add_tmod (-rest) k
      omega
    · exact h

/-- Steps that each keep a store keep it together. -/
theorem contains_foldl {terms : List (String × Int)}
    {step : List Interval → String × Int → List Interval}
    (hstep : ∀ cs, ∀ term ∈ terms, Contains scope (reachable cs) σ →
      Contains scope (reachable (step cs term)) σ)
    (h : Contains scope (reachable cs) σ) :
    Contains scope (reachable (terms.foldl step cs)) σ := by
  -- the invariant is that the store lies in the box; `cs` varies from step to step
  induction terms generalizing cs with
  | nil => exact h
  | cons term terms ih =>
    rw [List.foldl_cons]
    refine ih (fun cs other hother => hstep cs other (List.mem_cons_of_mem term hother)) ?_
    exact hstep cs term List.mem_cons_self h

/-- Both rounds of tightening keep the stores whose value of the form lies in the region. -/
theorem contains_tighten {f : LinearForm} (hf : f.Normal) {region : Interval}
    (hvalue : f.value σ ∈ region) (h : Contains scope (reachable cs) σ) :
    Contains scope (reachable (tighten scope f region cs)) σ := by
  -- one round is a fold over the terms, and there are two rounds
  have hround : ∀ cs, Contains scope (reachable cs) σ →
      Contains scope (reachable (tightenRound scope f region cs)) σ := fun cs hcs =>
    contains_foldl (fun _ _ hterm h => contains_tightenTerm hf hvalue hterm h) hcs
  exact hround _ (hround _ h)

theorem contains_exclude {f : LinearForm} (hf : f.Normal) (hvalue : f.value σ ≠ 0)
    (h : Contains scope (reachable cs) σ) :
    Contains scope (reachable (exclude scope f cs)) σ :=
  contains_foldl (fun _ _ hterm h => contains_excludeTerm hf hvalue hterm h) h

/-- The region of a relation has all values for which it holds. -/
theorem mem_region {r : Relation} {region : Interval} (hregion : region? r = some region)
    (h : r.Holds n) : n ∈ region := by
  cases r with
  | eq => exact Option.some.inj hregion ▸ Interval.mem_point.mpr h
  | ne => cases hregion
  | ge =>
    exact Option.some.inj hregion ▸ Interval.mem_between.mpr ⟨Bound.finite_le_finite.mpr h, trivial⟩
  | gt =>
    exact Option.some.inj hregion ▸ Interval.mem_between.mpr ⟨Bound.finite_le_finite.mpr h, trivial⟩

theorem eq_ne_of_region? {r : Relation} (hregion : region? r = none) : r = .ne := by
  cases r with
  | ne => rfl
  | eq | ge | gt => cases hregion

/-- A store in which the constraint holds survives the refinement. -/
theorem exists_refine? {c : Constraint} (h : Contains scope (reachable cs) σ) (hc : c.Holds σ) :
    ∃ refined, refine? scope cs c = some refined ∧ Contains scope (reachable refined) σ := by
  obtain ⟨n, heval, hholds⟩ := hc
  have hrange := Arith.mem_range (contains_iff.mp h).2 heval
  -- the relations with a region are tightened, the disequality is treated apart
  unfold refine?
  dsimp only
  cases hregion : region? c.relation with
  | some region =>
    have hn := mem_region hregion hholds
    -- the value of the expression is in both intervals, so the test for a contradiction fails
    have hmeet := Interval.isEmpty_eq_false_of_mem (Interval.mem_meet.mpr ⟨hrange, hn⟩)
    dsimp only
    rw [hmeet, if_neg Bool.false_ne_true]
    cases hlinear : c.expr.linear? with
    | none => exact ⟨cs, rfl, h⟩
    | some f =>
      have hvalue := Option.some.inj (heval.symm.trans (Arith.eval?_of_linear? σ hlinear))
      exact ⟨_, rfl, contains_tighten (Arith.normal_of_linear? hlinear) (hvalue ▸ hn) h⟩
  | none =>
    rw [eq_ne_of_region? hregion] at hholds
    -- the value is in the range and not zero, so the range is not zero alone
    have hnot : c.expr.range (lookup scope cs) ≠ .point 0 := by
      intro hpoint
      rw [hpoint] at hrange
      exact hholds (Interval.mem_point.mp hrange)
    dsimp only
    rw [if_neg hnot]
    cases hlinear : c.expr.linear? with
    | none => exact ⟨cs, rfl, h⟩
    | some f =>
      have hvalue := Option.some.inj (heval.symm.trans (Arith.eval?_of_linear? σ hlinear))
      exact ⟨_, rfl, contains_exclude (Arith.normal_of_linear? hlinear) (hvalue ▸ hholds) h⟩

/-- Refinement gives bottom or the refined components. -/
theorem constrain_cases {c : Constraint} (h : constrain scope b c = .ok t) :
    (b = bottom ∧ t = bottom) ∨ ∃ cs, b = reachable cs ∧ cs.length = scope.size ∧
      ((refine? scope cs c = none ∧ t = bottom) ∨
        ∃ refined, refine? scope cs c = some refined ∧ t = ofComponents refined) := by
  obtain ⟨_, -, h⟩ := bind_eq_ok_iff.mp h
  obtain ⟨_, hb, h⟩ := bind_eq_ok_iff.mp h
  obtain ⟨rfl, rfl⟩ | ⟨cs, rfl, hlen, rfl⟩ := components?_eq_ok_iff.mp hb
  · exact .inl ⟨rfl, (Except.ok.inj h).symm⟩
  · refine .inr ⟨cs, rfl, hlen, ?_⟩
    cases hrefine : refine? scope cs c with
    | none =>
      simp only [hrefine] at h
      exact .inl ⟨rfl, (Except.ok.inj h).symm⟩
    | some refined =>
      simp only [hrefine] at h
      exact .inr ⟨refined, rfl, (Except.ok.inj h).symm⟩

/-- Refinement keeps the stores in which the constraint holds. -/
theorem contains_constrain {c : Constraint} (ht : constrain scope b c = .ok t)
    (h : Contains scope b σ) (hc : c.Holds σ) : Contains scope t σ := by
  obtain ⟨rfl, -⟩ | ⟨cs, rfl, -, hrefined⟩ := constrain_cases ht
  · exact h.elim
  obtain ⟨refined, hrefine, hcontains⟩ := exists_refine? h hc
  obtain ⟨hnone, -⟩ | ⟨refined', hrefine', rfl⟩ := hrefined
  · -- a store in which the constraint holds leaves something of every component
    rw [hrefine] at hnone
    cases hnone
  · obtain rfl := Option.some.inj (hrefine.symm.trans hrefine')
    exact contains_ofComponents.mpr hcontains

/-! ## §5 The domain of boxes -/

/-- The valuations of the scope that some store of the box gives. -/
def Describes (scope : Scope) (b : Box) (v : scope.Valuation) : Prop :=
  ∃ σ : Store, σ.restrict scope = v ∧ Contains scope b σ

/-- A box describes the valuation of a store if it contains the store: what happens outside the
scope does not matter. -/
theorem describes_restrict_iff : Describes scope b (σ.restrict scope) ↔ Contains scope b σ := by
  constructor
  · rintro ⟨τ, hτ, h⟩
    exact contains_congr (fun x hx => congrFun hτ ⟨x, hx⟩) h
  · exact fun h => ⟨σ, rfl, h⟩

/-- Boxes are a sound domain. -/
theorem sound_domain (scope : Scope) : (domain scope).Sound (Describes scope) where
  top v := by
    obtain ⟨σ, hσ⟩ := Store.exists_restrict_eq v
    exact ⟨σ, hσ, contains_top scope σ⟩
  isBottom := by
    rintro s v hs ⟨σ, -, h⟩
    rw [of_decide_eq_true hs] at h
    exact h
  le hle := fun ⟨σ, hσ, h⟩ => ⟨σ, hσ, contains_of_le hle h⟩
  join_left ht := fun ⟨σ, hσ, h⟩ => ⟨σ, hσ, contains_join ht (.inl h)⟩
  join_right ht := fun ⟨σ, hσ, h⟩ => ⟨σ, hσ, contains_join ht (.inr h)⟩
  widen_left ht := fun ⟨σ, hσ, h⟩ => ⟨σ, hσ, contains_widen ht (.inl h)⟩
  widen_right ht := fun ⟨σ, hσ, h⟩ => ⟨σ, hσ, contains_widen ht (.inr h)⟩
  assign ht h he := ⟨_, rfl, contains_assign ht (describes_restrict_iff.mp h) he⟩
  forget ht h n := ⟨_, rfl, contains_forget ht (describes_restrict_iff.mp h) n⟩
  constrain ht h hc := ⟨_, rfl, contains_constrain ht (describes_restrict_iff.mp h) hc⟩

end Box

end RangeGuard
