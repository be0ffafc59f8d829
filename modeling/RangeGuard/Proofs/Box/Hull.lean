import RangeGuard.Proofs.Box.Reduction
import RangeGuard.Proofs.Interval.Hull

/-!
# Refinement gives the smallest box

The smallest box around a set of stores gives each variable the smallest interval around the values
that it has in them. Refinement by a linear constraint reaches it if beside each term the form has
only the coefficients `1` and `-1`: the rest of the form then takes every value of its range, so
what solving for a variable leaves over are values of solutions.

## The argument

1. *The rest takes every value of its range* (§2). Sums leave no gaps, and neither do multiples by
   `1` and `-1`. The variables of a form are distinct, so their values can be chosen one by one.
2. *Tightening leaves values of solutions only* (§3). The order in which the terms are visited does
   not matter for that. A step works with components that are at most as large as the first ones, so
   its result lies in what a step on the first ones would give, and the steps after it only take
   away. Solutions are never lost. Between these two bounds there is one box.
3. *A disequality has gaps* (§4). The zero of the form stays in the interval of a variable if it
   lies between other values, and there every interval around the solutions has it.

Coefficients other than `1` and `-1` do leave gaps in the rest, and then two rounds of tightening
need not find the smallest box. Nothing is claimed for them here.
-/

namespace RangeGuard

/-! ## §1 Smallest boxes -/

namespace Box

variable {scope : Scope} {b t : Box} {cs ds : List Interval} {P : Store → Prop} {σ : Store}
  {x : String} {n r k : Int} {f : LinearForm} {region : Interval} {c : Constraint}

/-- The box is the smallest one around the stores with a property: bottom if there are none,
otherwise the smallest interval for the values of each variable. -/
def IsHull (scope : Scope) (P : Store → Prop) : Box → Prop
  | bottom => ∀ σ, ¬ P σ
  | reachable cs => cs.length = scope.size ∧ (∃ σ, P σ) ∧
      ∀ x ∈ scope.names, (lookup scope cs x).IsHull fun n => ∃ σ, P σ ∧ σ x = n

/-- The smallest box is around its stores. -/
theorem IsHull.contains (h : IsHull scope P b) (hσ : P σ) : Contains scope b σ := by
  cases b with
  | bottom => exact h σ hσ
  | reachable cs => exact contains_of_forall_mem h.1 fun x hx => (h.2.2 x hx).1 _ ⟨σ, hσ, rfl⟩

/-- The smallest box lies in every proper box around its stores. -/
theorem IsHull.le (h : IsHull scope P b) (ht : Proper scope t)
    (hP : ∀ σ, P σ → Contains scope t σ) : le scope b t = .ok true := by
  cases b with
  | bottom => exact bottom_le ht
  | reachable cs =>
    obtain ⟨hlen, ⟨σ, hσ⟩, hhull⟩ := h
    cases t with
    | bottom => exact (hP σ hσ).elim
    | reachable ds =>
      apply (le_reachable_iff hlen ht.1).mpr
      intro x
      by_cases hx : x ∈ scope.names
      · apply (hhull x hx).2
        rintro _ ⟨τ, hτ, rfl⟩
        exact (contains_iff.mp (hP τ hτ)).2 x
      · rw [lookup_of_not_mem hx, lookup_of_not_mem hx]

/-- A list of components gives the smallest box if it loses no store, and if no value that it leaves
to a variable lies beyond all those that the variable has. -/
theorem isHull_ofComponents (hlen : cs.length = scope.size) (hc : ∀ i ∈ cs, i.Canonical)
    (hP : ∀ σ, P σ → Contains scope (reachable cs) σ)
    (hsome : (∀ x, (lookup scope cs x).isEmpty = false) → ∃ σ, P σ)
    (hbetween : ∀ σ, P σ → ∀ x ∈ scope.names, ∀ n ∈ lookup scope cs x,
      ∃ τ τ', P τ ∧ P τ' ∧ τ x ≤ n ∧ n ≤ τ' x) : IsHull scope P (ofComponents cs) := by
  cases hb : ofComponents cs with
  | bottom =>
    intro σ hσ
    have hcontains := contains_ofComponents.mpr (hP σ hσ)
    rwa [hb] at hcontains
  | reachable ds =>
    have hproper : Proper scope (ofComponents cs) := proper_ofComponents hlen
    obtain rfl : cs = ds := by
      unfold ofComponents at hb
      split at hb
      · cases hb
      · exact reachable.inj hb
    rw [hb] at hproper
    obtain ⟨σ, hσ⟩ := hsome (isEmpty_lookup hproper.2)
    refine ⟨hlen, ⟨σ, hσ⟩, fun x hx => ?_⟩
    apply Interval.isHull_of_between (canonical_lookup hc x)
    · rintro _ ⟨τ, hτ, rfl⟩
      exact (contains_iff.mp (hP τ hτ)).2 x
    · intro n hn
      obtain ⟨τ, τ', hτ, hτ', hle, hle'⟩ := hbetween σ hσ x hx n hn
      exact ⟨_, _, ⟨τ, hτ, rfl⟩, ⟨τ', hτ', rfl⟩, hle, hle'⟩

/-! ## §2 The rest of a form takes every value of its range -/

/-- The coefficients beside the term of `x` are `1` and `-1`. -/
def UnitBeside (f : LinearForm) (x : String) : Prop :=
  ∀ term ∈ LinearForm.termsExcept x f.terms, term.2 = 1 ∨ term.2 = -1

/-- Every member of what a fold over the terms collects is attained by a store, from some member of
the start. -/
private theorem exists_of_mem_foldl_terms (h : WellFormed scope (reachable cs))
    {terms : List (String × Int)} (hsorted : terms.Pairwise fun s t => s.1 < t.1)
    (hunit : ∀ term ∈ LinearForm.termsExcept x terms, term.2 = 1 ∨ term.2 = -1) {acc : Interval}
    (hacc : acc.Canonical)
    (hr : r ∈ terms.foldl (fun rest term => if term.1 = x then rest
      else rest + Interval.point term.2 * lookup scope cs term.1) acc) :
    ∃ m ∈ acc, ∃ σ, Contains scope (reachable cs) σ ∧
      LinearForm.sumOf σ (LinearForm.termsExcept x terms) + m = r := by
  -- from the last term backwards: the accumulator of the induction hypothesis has taken in this
  -- term
  induction terms generalizing acc with
  | nil =>
    obtain ⟨σ, hσ⟩ := h.exists_contains
    exact ⟨r, hr, σ, hσ, Int.zero_add r⟩
  | cons term terms ih =>
    obtain ⟨hhead, htail⟩ := List.pairwise_cons.mp hsorted
    rw [List.foldl_cons] at hr
    by_cases hterm : term.1 = x
    · have hskip : LinearForm.termsExcept x (term :: terms) = LinearForm.termsExcept x terms :=
        List.filter_cons_of_neg (by simpa using hterm)
      rw [if_pos hterm] at hr
      rw [hskip] at hunit ⊢
      exact ih htail hunit hacc hr
    · have hkeep : LinearForm.termsExcept x (term :: terms) =
          term :: LinearForm.termsExcept x terms := List.filter_cons_of_pos (by simpa using hterm)
      rw [if_neg hterm] at hr
      rw [hkeep] at hunit ⊢
      obtain ⟨hunitHead, hunitTail⟩ := List.forall_mem_cons.mp hunit
      have hproduct := (Interval.canonical_point term.2).mul (h.canonical_lookup term.1)
      obtain ⟨m, hm, σ, hσ, hsum⟩ := ih htail hunitTail (hacc.add hproduct) hr
      obtain ⟨m', hm', p, hp, rfl⟩ := Interval.exists_of_mem_add hacc hproduct hm
      obtain ⟨n, hn, rfl⟩ := Interval.exists_of_mem_unit_mul hunitHead hp
      -- the value of this variable is free, since the later terms have other names
      refine ⟨m', hm', σ.set term.1 n, contains_store_set hσ hn, ?_⟩
      have hother : ∀ t ∈ LinearForm.termsExcept x terms, t.1 ≠ term.1 := fun t ht =>
        (hhead t (List.mem_filter.mp ht).1).ne'
      rw [LinearForm.sumOf_cons, LinearForm.sumOf_set_of_not_mem hother, Store.set, if_pos rfl]
      omega

/-- The rest of a form takes every value of its range. -/
private theorem exists_of_mem_restRange (h : WellFormed scope (reachable cs)) (hf : f.Normal)
    (hunit : UnitBeside f x) (hr : r ∈ restRange scope cs f x) :
    ∃ σ, Contains scope (reachable cs) σ ∧
      LinearForm.sumOf σ (LinearForm.termsExcept x f.terms) + f.constant = r := by
  obtain ⟨m, hm, σ, hσ, hsum⟩ :=
    exists_of_mem_foldl_terms h hf.sorted hunit (Interval.canonical_point _) hr
  exact ⟨σ, hσ, Interval.mem_point.mp hm ▸ hsum⟩

/-- With any value for `x` and any value of the rest, the form takes the value that they give. -/
theorem exists_value_eq (h : WellFormed scope (reachable cs)) (hf : f.Normal)
    (hterm : (x, k) ∈ f.terms) (hunit : UnitBeside f x) (hn : n ∈ lookup scope cs x)
    (hr : r ∈ restRange scope cs f x) :
    ∃ σ, Contains scope (reachable cs) σ ∧ f.value σ = k * n + r ∧ σ x = n := by
  obtain ⟨σ, hσ, rfl⟩ := exists_of_mem_restRange h hf hunit hr
  exact ⟨σ.set x n, contains_store_set hσ hn, LinearForm.value_set_of_mem hf hterm σ n, if_pos rfl⟩

/-! ## §3 Tightening -/

/-- A step lies in what it would give on larger components, and the later steps take away only. -/
theorem lookup_foldl_tighten_le (hf : f.Normal) (hx : x ∈ scope.names)
    {terms : List (String × Int)} (hterm : (x, k) ∈ terms) (hterms : terms ⊆ f.terms)
    (hcs : cs.length = scope.size) (hle : ∀ y, lookup scope cs y ≤ lookup scope ds y) :
    lookup scope (terms.foldl (tightenTerm scope f region) cs) x ≤
      (region - restRange scope ds f x).divExact k := by
  induction terms generalizing cs with
  | nil => cases hterm
  | cons term terms ih =>
    have hcs' : (tightenTerm scope f region cs term).length = scope.size :=
      (length_tightenTerm f region cs term).trans hcs
    rw [List.foldl_cons]
    rcases List.mem_cons.mp hterm with rfl | hmem
    · -- this is the term of `x`: what it leaves is bounded here, the later terms only take away
      refine (lookup_foldl_le (length_tightenTerm f region)
        (fun _ term hcs => tightenTerm_le f region hcs term) hcs' x).trans ?_
      rw [tightenTerm, lookup_update hcs hx, if_pos rfl]
      refine Interval.meet_le_right.trans ?_
      apply Interval.divExact_le_divExact (hf.nonzero _ (hterms List.mem_cons_self))
      exact Interval.sub_le_sub le_rfl (restRange_le_restRange hle f x)
    · -- another term: afterwards the components are still below the first ones
      apply ih hmem (fun t ht => hterms (List.mem_cons_of_mem term ht)) hcs'
      exact fun y => (tightenTerm_le f region hcs term y).trans (hle y)

/-- Every value that tightening leaves to a variable of the form is one of a solution. -/
theorem exists_solution_of_mem_tighten (h : WellFormed scope (reachable cs)) (hf : f.Normal)
    (hregion : region.Canonical) (hx : x ∈ scope.names) (hterm : (x, k) ∈ f.terms)
    (hunit : UnitBeside f x) (hn : n ∈ lookup scope (tighten scope f region cs) x) :
    ∃ σ, (Contains scope (reachable cs) σ ∧ f.value σ ∈ region) ∧ σ x = n := by
  have hcs := h.1
  have hk : k ≠ 0 := hf.nonzero _ hterm
  have hquotient : n ∈ (region - restRange scope cs f x).divExact k :=
    Interval.mem_of_le (lookup_foldl_tighten_le hf hx hterm (fun _ => id)
      ((length_tightenRound f region cs).trans hcs) (lookup_tightenRound_le f region hcs)) hn
  have hproduct := Interval.mul_mem_of_mem_divExact hk hquotient
  -- `k * n` is a value of the region less a value of the rest, and the rest takes that value
  obtain ⟨v, hv, r, hr, hdiff⟩ := Interval.exists_of_mem_sub hregion
    (canonical_restRange h.canonical f x) hproduct
  obtain ⟨σ, hσ, hvalue, hσx⟩ := exists_value_eq h hf hterm hunit
    (Interval.mem_of_le (lookup_tighten_le f region hcs x) hn) hr
  refine ⟨σ, ⟨hσ, ?_⟩, hσx⟩
  rwa [hvalue, show k * n + r = v by omega]

/-- A variable that is not in the form keeps all its values in the solutions. -/
theorem exists_solution_of_not_mem {Q : Int → Prop} (h : Contains scope (reachable cs) σ)
    (hσ : Q (f.value σ)) (hx : ∀ k, (x, k) ∉ f.terms) (hn : n ∈ lookup scope cs x) :
    ∃ τ, (Contains scope (reachable cs) τ ∧ Q (f.value τ)) ∧ τ x = n := by
  refine ⟨σ.set x n, ⟨contains_store_set h hn, ?_⟩, if_pos rfl⟩
  rwa [LinearForm.value_set_of_not_mem hx]

/-- Tightening gives the smallest box around the stores in which the form has a value in the region.
-/
theorem isHull_tighten (h : WellFormed scope (reachable cs)) (hf : f.Normal)
    (hregion : region.Canonical) (hwithin : ∀ term ∈ f.terms, term.1 ∈ scope.names)
    (hunit : ∀ term ∈ f.terms, UnitBeside f term.1) (hne : f.terms ≠ []) :
    IsHull scope (fun σ => Contains scope (reachable cs) σ ∧ f.value σ ∈ region)
      (ofComponents (tighten scope f region cs)) := by
  apply isHull_ofComponents ((length_tighten f region cs).trans h.1)
    (canonical_tighten hf hregion h.canonical)
  · exact fun σ hσ => contains_tighten hf hσ.2 hσ.1
  · -- some component has a value, and it belongs to a solution
    intro hnonempty
    obtain ⟨⟨x, k⟩, hterm⟩ := List.exists_mem_of_ne_nil _ hne
    obtain ⟨n, hn⟩ := Interval.exists_mem_of_canonical
      (canonical_lookup (canonical_tighten hf hregion h.canonical) x) (hnonempty x)
    obtain ⟨σ, hσ, -⟩ := exists_solution_of_mem_tighten h hf hregion (hwithin _ hterm) hterm
      (hunit _ hterm) hn
    exact ⟨σ, hσ⟩
  · intro σ hσ x hx n hn
    have hattained : ∃ τ, (Contains scope (reachable cs) τ ∧ f.value τ ∈ region) ∧ τ x = n := by
      by_cases hmem : ∃ k, (x, k) ∈ f.terms
      · obtain ⟨k, hterm⟩ := hmem
        exact exists_solution_of_mem_tighten h hf hregion hx hterm (hunit _ hterm) hn
      · exact exists_solution_of_not_mem (Q := (· ∈ region)) hσ.1 hσ.2 (not_exists.mp hmem)
          (Interval.mem_of_le (lookup_tighten_le f region h.1 x) hn)
    obtain ⟨τ, hτ, rfl⟩ := hattained
    exact ⟨τ, τ, hτ, hτ, le_rfl, le_rfl⟩

/-! ## §4 Excluding the zero of a form -/

/-- A value that stays in an interval from which it was to be cut lies between two others. -/
theorem exists_around_of_mem_trimEnd {i : Interval} (hc : i.Canonical) (h : n ∈ trimEnd i n) :
    ∃ m ∈ i, ∃ m' ∈ i, m < n ∧ n < m' := by
  have hn : n ∈ i := Interval.mem_of_le (trimEnd_le i n) h
  unfold trimEnd at h
  split at h
  · have habove := Bound.finite_le_finite.mp (Interval.mem_between.mp h).1
    omega
  · rename_i hlow
    split at h
    · have hbelow := Bound.finite_le_finite.mp (Interval.mem_between.mp h).2
      omega
    · rename_i hhigh
      have hne := Interval.isEmpty_eq_false_of_mem hn
      -- neither end is at the value, so that there are members on both sides
      obtain ⟨m, hm, hlt⟩ := Interval.exists_mem_lt hc hne (lt_of_le_of_ne hn.1 hlow)
      obtain ⟨m', hm', hgt⟩ := Interval.exists_mem_gt hc hne (lt_of_le_of_ne hn.2 (Ne.symm hhigh))
      exact ⟨m, hm, m', hm', Bound.finite_lt_finite.mp hlt, Bound.finite_lt_finite.mp hgt⟩

/-- Components with a common store that lie in others have the same single values. -/
theorem constant?_restRange_of_le (hσ : Contains scope (reachable cs) σ)
    (hle : ∀ y, lookup scope cs y ≤ lookup scope ds y)
    (hrest : (restRange scope ds f x).constant? = some r) :
    (restRange scope cs f x).constant? = some r := by
  have hrange := restRange_le_restRange hle f x
  rw [Interval.constant?_eq_some_iff.mp hrest] at hrange
  exact Interval.constant?_eq_some_iff.mpr
    (Interval.eq_point_of_le (Interval.isEmpty_eq_false_of_mem (mem_restRange hσ f x)) hrange)

/-- The step at the term of a variable cuts its interval, and no other step enlarges it. -/
private theorem lookup_foldl_exclude_le (hf : f.Normal) (hx : x ∈ scope.names)
    (hrest : (restRange scope ds f x).constant? = some r) (hdvd : (-r).tmod k = 0)
    (hvalue : f.value σ ≠ 0) {terms : List (String × Int)} (hterm : (x, k) ∈ terms)
    (hterms : terms ⊆ f.terms) (hσ : Contains scope (reachable cs) σ)
    (hle : ∀ y, lookup scope cs y ≤ lookup scope ds y) :
    lookup scope (terms.foldl (excludeTerm scope f) cs) x ≤
      trimEnd (lookup scope ds x) ((-r).tdiv k) := by
  induction terms generalizing cs with
  | nil => cases hterm
  | cons term terms ih =>
    have hcs := hσ.1
    have hshrinks := excludeTerm_le f hcs term
    have hσ' := contains_excludeTerm hf hvalue (hterms List.mem_cons_self) hσ
    rw [List.foldl_cons]
    rcases List.mem_cons.mp hterm with rfl | hmem
    · refine (lookup_foldl_le (length_excludeTerm f) (fun _ term hcs => excludeTerm_le f hcs term)
        hσ'.1 x).trans ?_
      have hrest' := constant?_restRange_of_le hσ hle hrest
      simp only [excludeTerm, hrest', hdvd, if_true]
      rw [lookup_update hcs hx, if_pos rfl]
      exact trimEnd_le_trimEnd
        (Interval.isEmpty_eq_false_of_mem ((contains_iff.mp hσ).2 x)) (hle x) _
    · apply ih hmem (fun t ht => hterms (List.mem_cons_of_mem term ht)) hσ'
      exact fun y => (hshrinks y).trans (hle y)

/-- No value that is left to a variable of the form lies beyond all those of solutions. -/
theorem exists_solutions_of_mem_exclude (h : WellFormed scope (reachable cs)) (hf : f.Normal)
    (hx : x ∈ scope.names) (hterm : (x, k) ∈ f.terms) (hunit : UnitBeside f x)
    (hσ : Contains scope (reachable cs) σ) (hvalue : f.value σ ≠ 0)
    (hn : n ∈ lookup scope (exclude scope f cs) x) :
    ∃ τ τ', (Contains scope (reachable cs) τ ∧ f.value τ ≠ 0) ∧
      (Contains scope (reachable cs) τ' ∧ f.value τ' ≠ 0) ∧ τ x ≤ n ∧ n ≤ τ' x := by
  have hk : k ≠ 0 := hf.nonzero _ hterm
  have hmem : n ∈ lookup scope cs x := Interval.mem_of_le (lookup_exclude_le f h.1 x) hn
  -- a value of `x` is one of a solution if some value of the rest does not cancel it
  have hsolution : ∀ m ∈ lookup scope cs x, ∀ r ∈ restRange scope cs f x, k * m + r ≠ 0 →
      ∃ τ, (Contains scope (reachable cs) τ ∧ f.value τ ≠ 0) ∧ τ x = m := by
    intro m hm r hr hsum
    obtain ⟨τ, hτ, hvalue', hτx⟩ := exists_value_eq h hf hterm hunit hm hr
    exact ⟨τ, ⟨hτ, hvalue' ▸ hsum⟩, hτx⟩
  cases hrest : (restRange scope cs f x).constant? with
  | none =>
    -- the rest has two values, and one of them does not cancel `k * n`
    obtain ⟨r, hr, hne⟩ := Interval.exists_mem_ne (canonical_restRange h.canonical f x)
      (isEmpty_restRange h.isEmpty_lookup f x) hrest (-(k * n))
    obtain ⟨τ, hτ, rfl⟩ := hsolution n hmem r hr (by omega)
    exact ⟨τ, τ, hτ, hτ, le_rfl, le_rfl⟩
  | some r =>
    have hr : r ∈ restRange scope cs f x := by
      rw [Interval.constant?_eq_some_iff.mp hrest]
      exact Interval.mem_point.mpr rfl
    by_cases hzero : k * n + r = 0
    · -- the value is the zero of the form, and it is still there because it lies between others
      have hneg : -r = k * n := by omega
      have hdvd : (-r).tmod k = 0 := by rw [hneg, Int.mul_tmod_right]
      have hroot : (-r).tdiv k = n := by rw [hneg, Int.mul_tdiv_cancel_left n hk]
      have hle := lookup_foldl_exclude_le hf hx hrest hdvd hvalue hterm (fun _ => id) hσ
        (fun _ => le_rfl)
      rw [hroot] at hle
      obtain ⟨m, hm, m', hm', hlt, hgt⟩ :=
        exists_around_of_mem_trimEnd (h.canonical_lookup x) (Interval.mem_of_le hle hn)
      have hother : ∀ {m : Int}, m ≠ n → k * m + r ≠ 0 := by
        intro m hne hsum
        exact hne (Int.eq_of_mul_eq_mul_left hk (by omega))
      obtain ⟨τ, hτ, rfl⟩ := hsolution m hm r hr (hother hlt.ne)
      obtain ⟨τ', hτ', rfl⟩ := hsolution m' hm' r hr (hother hgt.ne')
      exact ⟨τ, τ', hτ, hτ', hlt.le, hgt.le⟩
    · obtain ⟨τ, hτ, rfl⟩ := hsolution n hmem r hr hzero
      exact ⟨τ, τ, hτ, hτ, le_rfl, le_rfl⟩

/-- If the form is zero throughout the box, its first variable is left without a value. -/
theorem isEmpty_exclude_of_forall_eq_zero (h : WellFormed scope (reachable cs)) (hf : f.Normal)
    {terms : List (String × Int)} (hterms : f.terms = (x, k) :: terms) (hx : x ∈ scope.names)
    (hunit : UnitBeside f x) (hzero : ∀ σ, Contains scope (reachable cs) σ → f.value σ = 0) :
    (lookup scope (exclude scope f cs) x).isEmpty = true := by
  have hterm : (x, k) ∈ f.terms := by rw [hterms]; exact List.mem_cons_self
  have hk : k ≠ 0 := hf.nonzero _ hterm
  have hsum : ∀ m ∈ lookup scope cs x, ∀ r ∈ restRange scope cs f x, k * m + r = 0 := by
    intro m hm r hr
    obtain ⟨σ, hσ, hvalue, -⟩ := exists_value_eq h hf hterm hunit hm hr
    exact hvalue ▸ hzero σ hσ
  -- both the variable and the rest of the form have a single value
  obtain ⟨n, hn⟩ := Interval.exists_mem_of_canonical (h.canonical_lookup x) (h.isEmpty_lookup x)
  obtain ⟨r, hr⟩ := Interval.exists_mem_of_canonical (canonical_restRange h.canonical f x)
    (isEmpty_restRange h.isEmpty_lookup f x)
  have hneg : -r = k * n := by
    have hnr := hsum n hn r hr
    omega
  have hrest : (restRange scope cs f x).constant? = some r := by
    apply Interval.constant?_eq_some_iff.mpr
    apply Interval.eq_point_of_le (isEmpty_restRange h.isEmpty_lookup f x)
    apply Interval.le_of_forall_mem (canonical_restRange h.canonical f x)
    intro r' hr'
    have hnr := hsum n hn r' hr'
    exact Interval.mem_point.mpr (by omega)
  have hpoint : lookup scope cs x = .point n := by
    apply Interval.eq_point_of_le (h.isEmpty_lookup x)
    apply Interval.le_of_forall_mem (h.canonical_lookup x)
    intro m hm
    have hmr := hsum m hm r hr
    exact Interval.mem_point.mpr (Int.eq_of_mul_eq_mul_left hk (by omega))
  have hdvd : (-r).tmod k = 0 := by rw [hneg, Int.mul_tmod_right]
  have hroot : (-r).tdiv k = n := by rw [hneg, Int.mul_tdiv_cancel_left n hk]
  -- the first step cuts the single value off, and nothing is left
  have hfirst : excludeTerm scope f cs (x, k) = update scope cs x .empty := by
    have htrim : trimEnd (.point n) n = .empty := by
      simp [trimEnd, Interval.point, Interval.between]
    simp only [excludeTerm, hrest, hdvd, if_true, hroot, hpoint, htrim]
  rw [exclude, hterms, List.foldl_cons, hfirst]
  refine Interval.isEmpty_of_le (lookup_foldl_le (length_excludeTerm f)
    (fun _ term hcs => excludeTerm_le f hcs term) ((length_update _ _ _ _).trans h.1) x) ?_
  rw [lookup_update h.1 hx, if_pos rfl]
  rfl

/-- Excluding its zero gives the smallest box around the stores in which the form is not zero. -/
theorem isHull_exclude (h : WellFormed scope (reachable cs)) (hf : f.Normal)
    (hwithin : ∀ term ∈ f.terms, term.1 ∈ scope.names)
    (hunit : ∀ term ∈ f.terms, UnitBeside f term.1) (hne : f.terms ≠ []) :
    IsHull scope (fun σ => Contains scope (reachable cs) σ ∧ f.value σ ≠ 0)
      (ofComponents (exclude scope f cs)) := by
  apply isHull_ofComponents ((length_exclude f cs).trans h.1) (canonical_exclude f h.canonical)
  · exact fun σ hσ => contains_exclude hf hσ.2 hσ.1
  · intro hnonempty
    -- a form that is zero throughout would have left an empty component
    by_contra! hzero
    obtain ⟨⟨x, k⟩, terms, hterms⟩ := List.exists_cons_of_ne_nil hne
    have hterm : (x, k) ∈ f.terms := by rw [hterms]; exact List.mem_cons_self
    have hempty := isEmpty_exclude_of_forall_eq_zero h hf hterms (hwithin _ hterm) (hunit _ hterm)
      hzero
    rw [hnonempty x] at hempty
    cases hempty
  · intro σ hσ x hx n hn
    by_cases hmem : ∃ k, (x, k) ∈ f.terms
    · obtain ⟨k, hterm⟩ := hmem
      exact exists_solutions_of_mem_exclude h hf hx hterm (hunit _ hterm) hσ.1 hσ.2 hn
    · obtain ⟨τ, hτ, rfl⟩ := exists_solution_of_not_mem (Q := (· ≠ 0)) hσ.1 hσ.2
        (not_exists.mp hmem) (Interval.mem_of_le (lookup_exclude_le f h.1 x) hn)
      exact ⟨τ, τ, hτ, hτ, le_rfl, le_rfl⟩

/-! ## §5 Refinement of boxes -/

/-- A constraint with a linear form is a condition on the value of the form. -/
theorem holds_iff_value (hlinear : c.expr.linear? = some f) :
    c.Holds σ ↔ c.relation.Holds (f.value σ) := by
  rw [Constraint.Holds, Arith.eval?_of_linear? σ hlinear]
  simp

/-- Relations other than disequality hold on a region. -/
theorem holds_iff_mem_region {rel : Relation} (hregion : region? rel = some region) :
    rel.Holds n ↔ n ∈ region :=
  ⟨mem_region hregion, holds_of_mem_region hregion⟩

theorem IsHull.congr {Q : Store → Prop} (h : IsHull scope P b) (hPQ : ∀ σ, P σ ↔ Q σ) :
    IsHull scope Q b := by
  rwa [show Q = P from funext fun σ => propext (hPQ σ).symm]

/-- A refinement that leaves nothing has no store in which the constraint holds. -/
theorem not_holds_of_refine?_eq_none (h : refine? scope cs c = none)
    (hσ : Contains scope (reachable cs) σ) : ¬ c.Holds σ := by
  intro hholds
  obtain ⟨refined, hsome, -⟩ := exists_refine? hσ hholds
  rw [h] at hsome
  cases hsome

/-- Refinement by a linear constraint gives the smallest box around the stores in which the
constraint holds, if the form has a term and beside each of its terms only the coefficients `1` and
`-1`. -/
theorem isHull_constrain (hb : WellFormed scope b) (hc : c.expr.Within scope)
    (hlinear : c.expr.linear? = some f) (hunit : ∀ term ∈ f.terms, UnitBeside f term.1)
    (hne : f.terms ≠ []) (ht : constrain scope b c = .ok t) :
    IsHull scope (fun σ => Contains scope b σ ∧ c.Holds σ) t := by
  have hf := Arith.normal_of_linear? hlinear
  have hwithin : ∀ term ∈ f.terms, term.1 ∈ scope.names := fun term hterm =>
    hc _ (Arith.name_mem_vars hlinear hterm)
  obtain ⟨rfl, rfl⟩ | ⟨cs, rfl, -, ⟨hnone, rfl⟩ | ⟨refined, hrefined, rfl⟩⟩ := constrain_cases ht
  · exact fun σ hσ => hσ.1
  · exact fun σ hσ => not_holds_of_refine?_eq_none hnone hσ.1 hσ.2
  · obtain ⟨region, hregion, -, rfl⟩ | ⟨hrelation, -, rfl⟩ := refine?_cases hrefined
    · rw [hlinear]
      apply (isHull_tighten hb hf (canonical_region hregion) hwithin hunit hne).congr
      intro σ
      rw [holds_iff_value hlinear, holds_iff_mem_region hregion]
    · rw [hlinear]
      apply (isHull_exclude hb hf hwithin hunit hne).congr
      intro σ
      rw [holds_iff_value hlinear, hrelation]
      rfl

end Box

end RangeGuard
