import Mathlib.Data.String.Basic
import Mathlib.Tactic.Ring
import RangeGuard.Arith.Linear

/-!
# Values and normal form of linear forms

An expression that has a linear form never divides, and the form has the value of the expression in
every store. The terms of such a form are sorted by name without repetition and no coefficient is
zero, so solving the form for one of its variables can skip that variable's term and divide by its
coefficient.

## Organisation

1. The operations that build forms, `addTerm`, `plus` and `scaled`, are followed by what they do to
   values (§1), to the normal form (§2) and to the variables that occur (§5). Each statement about
   `plus` is a fold of the one about `addTerm`.
2. A normal form is split into one term and the rest, and the value is followed when one variable
   changes (§3, §4). Refinement of boxes solves constraints through this.
3. The statements about expressions are inductions over the expression (§6, §7). What it takes for
   an expression to have a form is said once for each operator, as an inversion lemma, and the
   inductions only use these.
-/

namespace RangeGuard

namespace LinearForm

variable {x : String} {k : Int} {terms : List (String × Int)}

/-! ## §1 Values -/

@[simp] theorem sumOf_nil (σ : Store) : sumOf σ [] = 0 := rfl

@[simp] theorem sumOf_cons (σ : Store) (term : String × Int) (terms : List (String × Int)) :
    sumOf σ (term :: terms) = term.2 * σ term.1 + sumOf σ terms := rfl

/-- Adding a term adds its value, wherever the term is inserted. -/
private theorem sumOf_addTerm (σ : Store) (x : String) (k : Int) (terms : List (String × Int)) :
    sumOf σ (addTerm x k terms) = sumOf σ terms + k * σ x := by
  induction terms with
  | nil =>
    unfold addTerm
    split
    · rename_i hk
      simp [hk]
    · simp
  | cons head rest ih =>
    obtain ⟨y, c⟩ := head
    unfold addTerm
    split
    · rename_i hxy
      subst hxy
      split
      · -- the coefficients cancel, and with them both terms
        rename_i hzero
        have hk : k = -c := by omega
        simp only [sumOf_cons, hk]
        ring
      · simp only [sumOf_cons]
        ring
    · split
      · split
        · rename_i hk
          simp [hk]
        · simp only [sumOf_cons]
          ring
      · simp only [sumOf_cons, ih]
        ring

/-- The value of a sum of forms is the sum of the values. -/
private theorem value_plus (σ : Store) (f g : LinearForm) :
    (f.plus g).value σ = f.value σ + g.value σ := by
  -- the fold from any accumulator, so that the induction goes through
  have hfold : ∀ (ts acc : List (String × Int)),
      sumOf σ (ts.foldl (fun terms term => addTerm term.1 term.2 terms) acc) =
        sumOf σ acc + sumOf σ ts := by
    intro ts
    induction ts with
    | nil => simp
    | cons t ts ih =>
      intro acc
      simp only [List.foldl_cons, ih, sumOf_addTerm, sumOf_cons]
      ring
  simp only [plus, value, hfold]
  ring

/-- The value of a multiple of a form is the multiple of the value. -/
private theorem value_scaled (σ : Store) (f : LinearForm) (k : Int) :
    (f.scaled k).value σ = f.value σ * k := by
  have hmap : ∀ ts : List (String × Int),
      sumOf σ (ts.map fun term => (term.1, term.2 * k)) = sumOf σ ts * k := by
    intro ts
    induction ts with
    | nil => simp
    | cons t ts ih =>
      simp only [List.map_cons, sumOf_cons, ih]
      ring
  unfold scaled
  -- the multiple by zero is the constant zero and not a list of zero terms
  split
  · rename_i hk
    simp [hk, value, ofConstant]
  · simp only [value, hmap]
    ring

/-! ## §2 Normal form -/

/-- The terms are sorted strictly by name, and no coefficient is zero. -/
structure Normal (f : LinearForm) : Prop where
  sorted : f.terms.Pairwise fun s t => s.1 < t.1
  nonzero : ∀ term ∈ f.terms, term.2 ≠ 0

/-- The names of `addTerm x k terms` are those of the terms and `x`. -/
theorem name_of_mem_addTerm {term : String × Int} (h : term ∈ addTerm x k terms) :
    term.1 = x ∨ ∃ t ∈ terms, t.1 = term.1 := by
  fun_induction addTerm x k terms <;> grind

/-- A term is inserted at the place of its name. -/
private theorem sorted_addTerm (h : terms.Pairwise fun s t => s.1 < t.1) :
    (addTerm x k terms).Pairwise fun s t => s.1 < t.1 := by
  induction terms with
  | nil =>
    unfold addTerm
    split <;> simp
  | cons head rest ih =>
    obtain ⟨y, c⟩ := head
    obtain ⟨hhead, hrest⟩ := List.pairwise_cons.mp h
    unfold addTerm
    split
    · split
      · exact hrest
      · exact List.pairwise_cons.mpr ⟨hhead, hrest⟩
    · rename_i hne
      split
      · rename_i hlt
        split
        · exact h
        · refine List.pairwise_cons.mpr ⟨?_, h⟩
          intro t ht
          rcases List.mem_cons.mp ht with rfl | ht
          · exact hlt
          · exact lt_trans hlt (hhead t ht)
      · rename_i hnlt
        -- the term goes in behind `y`, somewhere in the rest
        refine List.pairwise_cons.mpr ⟨?_, ih hrest⟩
        intro t ht
        -- the new name comes after `y`, since it is neither `y` nor before it
        rcases name_of_mem_addTerm ht with hx | ⟨t', ht', hx⟩
        · rw [hx]
          exact lt_of_le_of_ne (not_lt.mp hnlt) (Ne.symm hne)
        · rw [← hx]
          exact hhead t' ht'

/-- Terms that cancel are dropped. -/
private theorem nonzero_addTerm (h : ∀ term ∈ terms, term.2 ≠ 0) :
    ∀ term ∈ addTerm x k terms, term.2 ≠ 0 := by
  induction terms with
  | nil =>
    unfold addTerm
    split <;> simp_all
  | cons head rest ih =>
    obtain ⟨hhead, hrest⟩ := List.forall_mem_cons.mp h
    unfold addTerm
    split
    · split
      · exact hrest
      · rename_i hsum
        exact List.forall_mem_cons.mpr ⟨hsum, hrest⟩
    · split
      · split
        · exact h
        · rename_i hk
          exact List.forall_mem_cons.mpr ⟨hk, h⟩
      · exact List.forall_mem_cons.mpr ⟨hhead, ih hrest⟩

/-- A sum of forms is normal if the first one is: the terms of the second are inserted one by one.
-/
theorem Normal.plus {f g : LinearForm} (hf : f.Normal) : (f.plus g).Normal := by
  -- inserting a term keeps the form normal, whatever the second form looks like
  have hfold : ∀ (ts acc : List (String × Int)),
      Normal ⟨acc, f.constant + g.constant⟩ →
        Normal ⟨ts.foldl (fun terms term => addTerm term.1 term.2 terms) acc,
          f.constant + g.constant⟩ := by
    intro ts
    induction ts with
    | nil => exact fun _ h => h
    | cons t ts ih => exact fun _ h => ih _ ⟨sorted_addTerm h.sorted, nonzero_addTerm h.nonzero⟩
  exact hfold g.terms f.terms ⟨hf.sorted, hf.nonzero⟩

/-- A multiple of a normal form is normal. The multiple by zero has no terms at all. -/
theorem Normal.scaled {f : LinearForm} (hf : f.Normal) (k : Int) : (f.scaled k).Normal := by
  unfold LinearForm.scaled
  split
  · exact ⟨.nil, by simp [ofConstant]⟩
  · rename_i hk
    refine ⟨List.pairwise_map.mpr hf.sorted, ?_⟩
    intro term hterm
    obtain ⟨t, ht, rfl⟩ := List.mem_map.mp hterm
    exact Int.mul_ne_zero (hf.nonzero t ht) hk

/-! ## §3 Splitting off a term -/

/-- The terms of the other variables. -/
def termsExcept (x : String) (terms : List (String × Int)) : List (String × Int) :=
  terms.filter fun term => term.1 ≠ x

private theorem termsExcept_eq_self (h : ∀ term ∈ terms, x < term.1) :
    termsExcept x terms = terms := by
  refine List.filter_eq_self.mpr ?_
  intro term hterm
  simpa using (h term hterm).ne'

/-- A sum over sorted terms is the term of one variable and the sum of the others. -/
theorem sumOf_eq_of_mem (σ : Store) (hsorted : terms.Pairwise fun s t => s.1 < t.1)
    (h : (x, k) ∈ terms) : sumOf σ terms = k * σ x + sumOf σ (termsExcept x terms) := by
  induction terms with
  | nil => cases h
  | cons head rest ih =>
    obtain ⟨hhead, hrest⟩ := List.pairwise_cons.mp hsorted
    rcases List.mem_cons.mp h with rfl | hmem
    · -- the names of the rest come later, so none of its terms is dropped
      have hkeep : termsExcept x ((x, k) :: rest) = rest := by
        rw [termsExcept, List.filter_cons_of_neg (by simp)]
        exact termsExcept_eq_self hhead
      rw [hkeep, sumOf_cons]
    · -- the head is another variable, because the names are sorted strictly
      have hkeep : termsExcept x (head :: rest) = head :: termsExcept x rest :=
        List.filter_cons_of_pos (by simpa using (hhead _ hmem).ne)
      rw [hkeep, sumOf_cons, sumOf_cons, ih hrest hmem]
      ring

/-- A form is one of its terms and the rest. -/
theorem value_eq_term_add_rest {f : LinearForm} (hf : f.Normal) (hterm : (x, k) ∈ f.terms)
    (σ : Store) : f.value σ = k * σ x + (sumOf σ (termsExcept x f.terms) + f.constant) := by
  rw [value, sumOf_eq_of_mem σ hf.sorted hterm, Int.add_assoc]

/-! ## §4 Changing one variable -/

/-- A sum does not depend on variables without a term. -/
theorem sumOf_set_of_not_mem (h : ∀ term ∈ terms, term.1 ≠ x) (σ : Store) (n : Int) :
    sumOf (σ.set x n) terms = sumOf σ terms := by
  induction terms with
  | nil => rfl
  | cons term terms ih =>
    obtain ⟨hhead, htail⟩ := List.forall_mem_cons.mp h
    rw [sumOf_cons, sumOf_cons, ih htail, Store.set, if_neg hhead]

private theorem name_ne_of_mem_termsExcept {term : String × Int} (h : term ∈ termsExcept x terms) :
    term.1 ≠ x := by
  simpa using (List.mem_filter.mp h).2

/-- The value of a normal form is linear in each of its variables, with the coefficient of the term.
-/
theorem value_set_of_mem {f : LinearForm} (hf : f.Normal) (hterm : (x, k) ∈ f.terms) (σ : Store)
    (n : Int) :
    f.value (σ.set x n) = k * n + (sumOf σ (termsExcept x f.terms) + f.constant) := by
  rw [value_eq_term_add_rest hf hterm, sumOf_set_of_not_mem fun _ => name_ne_of_mem_termsExcept]
  simp [Store.set]

/-- The value of a form does not depend on variables without a term. -/
theorem value_set_of_not_mem {f : LinearForm} (h : ∀ k, (x, k) ∉ f.terms) (σ : Store) (n : Int) :
    f.value (σ.set x n) = f.value σ := by
  rw [value, sumOf_set_of_not_mem, value]
  rintro ⟨y, k⟩ hterm rfl
  exact h k hterm

/-! ## §5 The variables of a form -/

private theorem name_of_mem_plus {f g : LinearForm} {term : String × Int}
    (h : term ∈ (f.plus g).terms) :
    (∃ t ∈ f.terms, t.1 = term.1) ∨ ∃ t ∈ g.terms, t.1 = term.1 := by
  have hfold : ∀ (ts acc : List (String × Int)),
      term ∈ ts.foldl (fun terms t => addTerm t.1 t.2 terms) acc →
        (∃ t ∈ acc, t.1 = term.1) ∨ ∃ t ∈ ts, t.1 = term.1 := by
    intro ts
    induction ts with
    | nil => exact fun _ hmem => .inl ⟨term, hmem, rfl⟩
    | cons t ts ih =>
      intro acc hmem
      -- a name of the result was in the accumulator before the step or comes from the rest
      rcases ih _ hmem with ⟨t', ht', hname⟩ | ⟨t', ht', hname⟩
      · rcases name_of_mem_addTerm ht' with hhead | ⟨t'', ht'', hname'⟩
        · exact .inr ⟨t, List.mem_cons_self, hhead.symm.trans hname⟩
        · exact .inl ⟨t'', ht'', hname'.trans hname⟩
      · exact .inr ⟨t', List.mem_cons_of_mem t ht', hname⟩
  exact hfold g.terms f.terms h

private theorem name_of_mem_scaled {f : LinearForm} {k : Int} {term : String × Int}
    (h : term ∈ (f.scaled k).terms) : ∃ t ∈ f.terms, t.1 = term.1 := by
  unfold scaled at h
  split at h
  · cases h
  · obtain ⟨t, ht, rfl⟩ := List.mem_map.mp h
    exact ⟨t, ht, rfl⟩

end LinearForm

/-! ## §6 Forms of expressions -/

namespace Arith

variable {a b : Arith} {f : LinearForm}

private theorem linear?_add_eq_some (h : (add a b).linear? = some f) :
    ∃ g g', a.linear? = some g ∧ b.linear? = some g' ∧ f = g.plus g' := by
  simp only [linear?, bind, Option.bind_eq_some_iff, pure, Option.some.injEq] at h
  obtain ⟨g, hg, g', hg', rfl⟩ := h
  exact ⟨g, g', hg, hg', rfl⟩

private theorem linear?_sub_eq_some (h : (sub a b).linear? = some f) :
    ∃ g g', a.linear? = some g ∧ b.linear? = some g' ∧ f = g.plus (g'.scaled (-1)) := by
  simp only [linear?, bind, Option.bind_eq_some_iff, pure, Option.some.injEq] at h
  obtain ⟨g, hg, g', hg', rfl⟩ := h
  exact ⟨g, g', hg, hg', rfl⟩

private theorem linear?_neg_eq_some (h : (neg a).linear? = some f) :
    ∃ g, a.linear? = some g ∧ f = g.scaled (-1) := by
  simp only [linear?, bind, Option.bind_eq_some_iff, pure, Option.some.injEq] at h
  obtain ⟨g, hg, rfl⟩ := h
  exact ⟨g, hg, rfl⟩

/-- A product has a form only if one factor is constant, and then it is a multiple of the other. -/
theorem linear?_mul_eq_some (h : (mul a b).linear? = some f) :
    ∃ g g', a.linear? = some g ∧ b.linear? = some g' ∧
      ((g.terms = [] ∧ f = g'.scaled g.constant) ∨
        (g'.terms = [] ∧ f = g.scaled g'.constant)) := by
  simp only [linear?, bind, Option.bind_eq_some_iff] at h
  obtain ⟨g, hg, g', hg', hf⟩ := h
  refine ⟨g, g', hg, hg', ?_⟩
  -- the left factor is tried first
  split at hf
  · rename_i hconst
    exact .inl ⟨List.isEmpty_iff.mp hconst, (Option.some.inj hf).symm⟩
  · split at hf
    · rename_i hconst
      exact .inr ⟨List.isEmpty_iff.mp hconst, (Option.some.inj hf).symm⟩
    · cases hf

/-- The form of an expression has the value of the expression, which therefore has one. -/
theorem eval?_of_linear? {e : Arith} (σ : Store) (h : e.linear? = some f) :
    e.eval? σ = some (f.value σ) := by
  induction e generalizing f with
  | var x =>
    obtain rfl := Option.some.inj h
    simp [eval?, LinearForm.value, LinearForm.ofVariable]
  | const n =>
    obtain rfl := Option.some.inj h
    simp [eval?, LinearForm.value, LinearForm.ofConstant]
  | add a b iha ihb =>
    obtain ⟨g, g', hg, hg', rfl⟩ := linear?_add_eq_some h
    simp [eval?, iha hg, ihb hg', LinearForm.value_plus]
  | sub a b iha ihb =>
    obtain ⟨g, g', hg, hg', rfl⟩ := linear?_sub_eq_some h
    simp [eval?, iha hg, ihb hg', LinearForm.value_plus, LinearForm.value_scaled,
      Int.sub_eq_add_neg]
  | mul a b iha ihb =>
    obtain ⟨g, g', hg, hg', ⟨hconst, rfl⟩ | ⟨hconst, rfl⟩⟩ := linear?_mul_eq_some h
    -- a form without terms is its constant
    · have hvalue : g.value σ = g.constant := by simp [LinearForm.value, hconst]
      simp [eval?, iha hg, ihb hg', LinearForm.value_scaled, hvalue, Int.mul_comm]
    · have hvalue : g'.value σ = g'.constant := by simp [LinearForm.value, hconst]
      simp [eval?, iha hg, ihb hg', LinearForm.value_scaled, hvalue]
  -- quotients and remainders have no form
  | div a b => cases h
  | rem a b => cases h
  | neg a iha =>
    obtain ⟨g, hg, rfl⟩ := linear?_neg_eq_some h
    simp [eval?, iha hg, LinearForm.value_scaled]

/-- The form of an expression is normal. -/
theorem normal_of_linear? {e : Arith} (h : e.linear? = some f) : f.Normal := by
  induction e generalizing f with
  | var x =>
    obtain rfl := Option.some.inj h
    exact ⟨List.pairwise_singleton _ _, by simp [LinearForm.ofVariable]⟩
  | const n =>
    obtain rfl := Option.some.inj h
    exact ⟨.nil, by simp [LinearForm.ofConstant]⟩
  | add a b iha ihb =>
    obtain ⟨g, g', hg, hg', rfl⟩ := linear?_add_eq_some h
    exact (iha hg).plus
  | sub a b iha ihb =>
    obtain ⟨g, g', hg, hg', rfl⟩ := linear?_sub_eq_some h
    exact (iha hg).plus
  | mul a b iha ihb =>
    obtain ⟨g, g', hg, hg', ⟨-, rfl⟩ | ⟨-, rfl⟩⟩ := linear?_mul_eq_some h
    · exact (ihb hg').scaled _
    · exact (iha hg).scaled _
  | div a b => cases h
  | rem a b => cases h
  | neg a iha =>
    obtain ⟨g, hg, rfl⟩ := linear?_neg_eq_some h
    exact (iha hg).scaled _

/-! ## §7 Variables -/

/-- The variables of an expression are those that occur in it, each listed once. -/
theorem mem_vars {e : Arith} {x : String} : x ∈ e.vars ↔ x ∈ e.occurrences := by
  have hfold : ∀ (xs seen : List String),
      x ∈ xs.foldl (fun seen y => if y ∈ seen then seen else seen ++ [y]) seen ↔
        x ∈ seen ∨ x ∈ xs := by
    intro xs
    induction xs with
    | nil => simp
    | cons y ys ih =>
      intro seen
      -- a variable that has been seen is not listed again
      rw [List.foldl_cons, ih]
      split
      · rename_i hy
        constructor
        · exact Or.imp_right (List.mem_cons_of_mem y)
        · rintro (hseen | hcons)
          · exact .inl hseen
          · rcases List.mem_cons.mp hcons with rfl | hys
            · exact .inl hy
            · exact .inr hys
      · simp [or_assoc]
  simpa [vars] using hfold e.occurrences []

/-- The form of an expression has terms for variables of the expression only. -/
theorem name_mem_vars {e : Arith} {f : LinearForm} (h : e.linear? = some f)
    {term : String × Int} (hterm : term ∈ f.terms) : term.1 ∈ e.vars := by
  rw [mem_vars]
  induction e generalizing f term with
  | var x =>
    obtain rfl := Option.some.inj h
    rw [List.mem_singleton.mp hterm]
    exact List.mem_singleton_self x
  | const n =>
    obtain rfl := Option.some.inj h
    cases hterm
  | add a b iha ihb =>
    obtain ⟨g, g', hg, hg', rfl⟩ := linear?_add_eq_some h
    rcases LinearForm.name_of_mem_plus hterm with ⟨t, ht, hname⟩ | ⟨t, ht, hname⟩
    · exact List.mem_append_left _ (hname ▸ iha hg ht)
    · exact List.mem_append_right _ (hname ▸ ihb hg' ht)
  | sub a b iha ihb =>
    obtain ⟨g, g', hg, hg', rfl⟩ := linear?_sub_eq_some h
    rcases LinearForm.name_of_mem_plus hterm with ⟨t, ht, hname⟩ | ⟨t, ht, hname⟩
    · exact List.mem_append_left _ (hname ▸ iha hg ht)
    · obtain ⟨t', ht', hname'⟩ := LinearForm.name_of_mem_scaled ht
      exact List.mem_append_right _ (hname ▸ hname' ▸ ihb hg' ht')
  | mul a b iha ihb =>
    obtain ⟨g, g', hg, hg', ⟨-, rfl⟩ | ⟨-, rfl⟩⟩ := linear?_mul_eq_some h
    · obtain ⟨t, ht, hname⟩ := LinearForm.name_of_mem_scaled hterm
      exact List.mem_append_right _ (hname ▸ ihb hg' ht)
    · obtain ⟨t, ht, hname⟩ := LinearForm.name_of_mem_scaled hterm
      exact List.mem_append_left _ (hname ▸ iha hg ht)
  | div a b => cases h
  | rem a b => cases h
  | neg a iha =>
    obtain ⟨g, hg, rfl⟩ := linear?_neg_eq_some h
    obtain ⟨t, ht, hname⟩ := LinearForm.name_of_mem_scaled hterm
    exact hname ▸ iha hg ht

end Arith

end RangeGuard
