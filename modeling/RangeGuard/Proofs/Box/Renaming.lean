import RangeGuard.Proofs.Box.Comparison
import RangeGuard.Proofs.Program.Renaming

/-!
# Boxes under other names

Two scopes name the same variables differently, in any order, and the second may have additional
variables. A box over the first corresponds to one over the second if both are bottom, or if each
variable has the same interval under both names and the additional variables are unconstrained. The
operations on boxes take corresponding boxes to corresponding ones.

For all operations but one this follows from their steps, because they treat variables one at a time
(§1 to §3). Refinement is different. It goes through the terms of a form in the order of their
names, and a renaming may change that order, so that the intermediate lists do not correspond. The
way around is to look at the result only (§4, §5):

- where a variable is left in the form, the result is the smallest box around a set of stores, and
  renaming maps the one set to the other;
- where none is left, the components do not change, and the test on the range has the same answer.

This is why only constraints from comparisons are covered: for forms with other coefficients the
result of a refinement may depend on the order of the terms.
-/

namespace RangeGuard

/-- The second scope has the variables of the first one under the names that `ρ` gives them. -/
structure Scope.Renames (ρ : String → String) (scope scope' : Scope) : Prop where
  injective : ∀ {x y}, x ∈ scope.names → y ∈ scope.names → ρ x = ρ y → x = y
  mem : ∀ {x}, x ∈ scope.names → ρ x ∈ scope'.names

namespace Arith

variable {ρ : String → String} {scope scope' : Scope} {e l r : Arith}

/-- A renamed expression is within the renamed scope. -/
theorem within_rename (hρ : scope.Renames ρ scope') (he : e.Within scope) :
    (e.rename ρ).Within scope' := by
  intro y hy
  rw [mem_vars, occurrences_rename] at hy
  obtain ⟨x, hx, rfl⟩ := List.mem_map.mp hy
  exact hρ.mem (he x (mem_vars.mpr hx))

/-- Renaming leaves a variable in a difference exactly if one is left without it. -/
theorem differ_rename (hρ : scope.Renames ρ scope') (hl : l.IsAtom ∧ l.Within scope)
    (hr : r.IsAtom ∧ r.Within scope) : (l.rename ρ).Differ (r.rename ρ) ↔ l.Differ r := by
  have hmem : ∀ {x}, (var x).Within scope → x ∈ scope.names := fun h =>
    h _ (mem_vars.mpr (List.mem_singleton_self _))
  cases l with
  | const m =>
    cases r with
    | const n => exact Iff.rfl
    | var y => exact Iff.rfl
    | _ => exact hr.1.elim
  | var x =>
    cases r with
    | const n => exact Iff.rfl
    | var y => exact not_congr ⟨hρ.injective (hmem hl.2) (hmem hr.2), congrArg ρ⟩
    | _ => exact hr.1.elim
  | _ => exact hl.1.elim

end Arith

namespace Box

variable {ρ : String → String} {scope scope' : Scope} {a a' b b' s s' t t' : Box}
  {cs ds cs₂ ds₂ : List Interval} {x : String} {e l r : Arith} {σ τ : Store}

/-- The components of the same box under other names: each variable has its interval, and an
additional variable is unconstrained. -/
structure Renamed (ρ : String → String) (scope scope' : Scope) (cs ds : List Interval) : Prop where
  left_length : cs.length = scope.size
  right_length : ds.length = scope'.size
  lookup_eq : ∀ {x}, x ∈ scope.names → lookup scope' ds (ρ x) = lookup scope cs x
  lookup_full : ∀ {y}, y ∈ scope'.names → (∀ x ∈ scope.names, ρ x ≠ y) →
    lookup scope' ds y = .full

/-- The same box under other names. -/
inductive Corresponds (ρ : String → String) (scope scope' : Scope) : Box → Box → Prop where
  | bottom : Corresponds ρ scope scope' bottom bottom
  | reachable {cs ds : List Interval} (h : Renamed ρ scope scope' cs ds) :
      Corresponds ρ scope scope' (reachable cs) (reachable ds)

/-! ## §1 Components -/

/-- Top corresponds to top. -/
theorem renamed_top :
    Renamed ρ scope scope' (List.replicate scope.size .full)
      (List.replicate scope'.size .full) where
  left_length := List.length_replicate
  right_length := List.length_replicate
  lookup_eq _ := by rw [lookup_top, lookup_top]
  lookup_full _ _ := lookup_top _

/-- The same interval for a variable under both its names. -/
theorem Renamed.set (hρ : scope.Renames ρ scope') (h : Renamed ρ scope scope' cs ds) {k k' : Nat}
    (hk : scope.position? x = some k) (hk' : scope'.position? (ρ x) = some k') (i : Interval) :
    Renamed ρ scope scope' (cs.set k i) (ds.set k' i) := by
  have hx : x ∈ scope.names := List.mem_of_getElem? (Scope.position?_eq_some_iff.mp hk)
  refine ⟨List.length_set.trans h.left_length, List.length_set.trans h.right_length, ?_, ?_⟩
  · intro y hy
    rw [lookup_set h.right_length hk', lookup_set h.left_length hk, h.lookup_eq hy]
    by_cases hyx : y = x
    · rw [if_pos hyx, if_pos (congrArg ρ hyx)]
    · -- the renaming is injective on the scope, so that no other variable is touched
      rw [if_neg hyx, if_neg fun heq => hyx (hρ.injective hy hx heq)]
  · intro y hy hadditional
    rw [lookup_set h.right_length hk', if_neg (Ne.symm (hadditional x hx))]
    exact h.lookup_full hy hadditional

/-- Combining component by component respects the correspondence, if nothing is known of a
combination of two unconstrained variables. -/
theorem Renamed.zipWith (hρ : scope.Renames ρ scope') {f : Interval → Interval → Interval}
    (hf : f .full .full = .full) (h : Renamed ρ scope scope' cs ds)
    (h₂ : Renamed ρ scope scope' cs₂ ds₂) :
    Renamed ρ scope scope' (List.zipWith f cs cs₂) (List.zipWith f ds ds₂) where
  left_length := by simp [h.left_length, h₂.left_length]
  right_length := by simp [h.right_length, h₂.right_length]
  lookup_eq hx := by
    rw [lookup_zipWith f h.right_length h₂.right_length (hρ.mem hx),
      lookup_zipWith f h.left_length h₂.left_length hx, h.lookup_eq hx, h₂.lookup_eq hx]
  lookup_full hy hadditional := by
    rw [lookup_zipWith f h.right_length h₂.right_length hy, h.lookup_full hy hadditional,
      h₂.lookup_full hy hadditional, hf]

/-- What holds of the two intervals of each variable under the one naming holds under the other. -/
theorem Renamed.forall_iff {Q : Interval → Interval → Prop} (hfull : Q .full .full)
    (h : Renamed ρ scope scope' cs ds) (h₂ : Renamed ρ scope scope' cs₂ ds₂) :
    (∀ y, Q (lookup scope' ds y) (lookup scope' ds₂ y)) ↔
      ∀ x, Q (lookup scope cs x) (lookup scope cs₂ x) := by
  constructor
  · intro hds x
    by_cases hx : x ∈ scope.names
    · rw [← h.lookup_eq hx, ← h₂.lookup_eq hx]
      exact hds (ρ x)
    · rwa [lookup_of_not_mem hx, lookup_of_not_mem hx]
  · intro hcs y
    by_cases hy : y ∈ scope'.names
    · -- a name of the second scope is a renamed one or an additional one
      by_cases himage : ∃ x ∈ scope.names, ρ x = y
      · obtain ⟨x, hx, rfl⟩ := himage
        rw [h.lookup_eq hx, h₂.lookup_eq hx]
        exact hcs x
      · have hadditional : ∀ x ∈ scope.names, ρ x ≠ y := fun x hx hxy => himage ⟨x, hx, hxy⟩
        rw [h.lookup_full hy hadditional, h₂.lookup_full hy hadditional]
        exact hfull
    · rwa [lookup_of_not_mem hy, lookup_of_not_mem hy]

/-- Corresponding components collapse together. -/
private theorem Renamed.corresponds_ofComponents (h : Renamed ρ scope scope' cs ds) :
    Corresponds ρ scope scope' (ofComponents cs) (ofComponents ds) := by
  have hiff := h.forall_iff (Q := fun i _ => i.isEmpty = false) rfl h
  -- an empty component shows as an empty look-up
  have hany : ∀ {scope : Scope} {cs : List Interval}, cs.length = scope.size →
      (cs.any Interval.isEmpty = false ↔ ∀ x, (lookup scope cs x).isEmpty = false) := by
    intro scope cs hlen
    rw [List.any_eq_false]
    simp only [Bool.not_eq_true]
    exact ⟨fun hall => isEmpty_lookup hall, forall_isEmpty_of_lookup hlen⟩
  rw [← hany h.right_length, ← hany h.left_length] at hiff
  unfold ofComponents
  cases hcs : cs.any Interval.isEmpty with
  | false =>
    rw [hiff.mpr hcs]
    exact .reachable h
  | true =>
    have hds : ds.any Interval.isEmpty = true :=
      Bool.of_not_eq_false fun hds => Bool.false_ne_true ((hiff.mp hds).symm.trans hcs)
    rw [hds]
    exact .bottom

/-- A renamed expression has the same range. -/
theorem Renamed.range_eq (h : Renamed ρ scope scope' cs ds) (he : e.Within scope) :
    (e.rename ρ).range (lookup scope' ds) = e.range (lookup scope cs) := by
  have hmem : ∀ x ∈ e.occurrences, lookup scope' ds (ρ x) = lookup scope cs x := fun x hx =>
    h.lookup_eq (he x (Arith.mem_vars.mpr hx))
  clear he
  induction e with
  | var x => exact hmem x (List.mem_singleton_self x)
  | const n => rfl
  | add a b iha ihb | sub a b iha ihb | mul a b iha ihb | div a b iha ihb | rem a b iha ihb =>
    have ha := iha fun x hx => hmem x (List.mem_append_left _ hx)
    have hb := ihb fun x hx => hmem x (List.mem_append_right _ hx)
    simp only [Arith.rename, Arith.range, ha, hb]
  | neg a iha => simp only [Arith.rename, Arith.range, iha hmem]

/-! ## §2 Order, join and widening -/

/-- Corresponding boxes have the same inclusions. -/
theorem le_corresponds (ha : Corresponds ρ scope scope' a a')
    (hb : Corresponds ρ scope scope' b b') : le scope' a' b' = le scope a b := by
  cases ha with
  | bottom =>
    cases hb with
    | bottom => rfl
    | reachable hb =>
      simp only [le, components?, hb.left_length, hb.right_length, if_true]
      rfl
  | @reachable cs ds ha =>
    cases hb with
    | bottom =>
      simp only [le, components?, ha.left_length, ha.right_length, if_true]
      rfl
    | @reachable cs₂ ds₂ hb =>
      have hanswer : ∀ {scope : Scope} {cs cs₂ : List Interval}, cs.length = scope.size →
          cs₂.length = scope.size → le scope (Box.reachable cs) (Box.reachable cs₂) =
            .ok ((cs.zip cs₂).all fun p => decide (p.1 ≤ p.2)) := by
        intro scope cs cs₂ hcs hcs₂
        rw [le, components?, components?, if_pos hcs, if_pos hcs₂]
        rfl
      -- both answers are decided by the look-ups, which are the same
      have hiff : le scope' (Box.reachable ds) (Box.reachable ds₂) = .ok true ↔
          le scope (Box.reachable cs) (Box.reachable cs₂) = .ok true := by
        rw [le_reachable_iff ha.right_length hb.right_length,
          le_reachable_iff ha.left_length hb.left_length]
        exact ha.forall_iff le_rfl hb
      rw [hanswer ha.left_length hb.left_length, hanswer ha.right_length hb.right_length] at hiff ⊢
      simp only [Except.ok.injEq] at hiff
      exact congrArg _ (Bool.eq_iff_iff.mpr hiff)

/-- Joins and widenings of corresponding boxes correspond. -/
theorem corresponds_pointwise (hρ : scope.Renames ρ scope') {f : Interval → Interval → Interval}
    (hf : f .full .full = .full) (ha : Corresponds ρ scope scope' a a')
    (hb : Corresponds ρ scope scope' b b') (ht : pointwise scope f a b = .ok t)
    (ht' : pointwise scope' f a' b' = .ok t') : Corresponds ρ scope scope' t t' := by
  -- bottom is neutral on both sides; otherwise components are combined on both sides
  cases ha with
  | bottom =>
    obtain ⟨-, rfl⟩ | ⟨rfl, rfl⟩ | ⟨_, _, h, -⟩ := pointwise_cases ht
    · obtain ⟨-, rfl⟩ | ⟨rfl, rfl⟩ | ⟨_, _, h, -⟩ := pointwise_cases ht'
      · exact hb
      · cases hb
        exact .bottom
      · cases h
    · cases hb
      obtain ⟨-, rfl⟩ | ⟨-, rfl⟩ | ⟨_, _, h, -⟩ := pointwise_cases ht'
      · exact .bottom
      · exact .bottom
      · cases h
    · cases h
  | reachable ha =>
    cases hb with
    | bottom =>
      obtain ⟨h, -⟩ | ⟨-, rfl⟩ | ⟨_, _, -, h, -⟩ := pointwise_cases ht
      · cases h
      · obtain ⟨h, -⟩ | ⟨-, rfl⟩ | ⟨_, _, -, h, -⟩ := pointwise_cases ht'
        · cases h
        · exact .reachable ha
        · cases h
      · cases h
    | reachable hb =>
      obtain ⟨h, -⟩ | ⟨h, -⟩ | ⟨_, _, ⟨⟩, ⟨⟩, -, -, rfl⟩ := pointwise_cases ht
      · cases h
      · cases h
      obtain ⟨h, -⟩ | ⟨h, -⟩ | ⟨_, _, ⟨⟩, ⟨⟩, -, -, rfl⟩ := pointwise_cases ht'
      · cases h
      · cases h
      exact (ha.zipWith hρ hf hb).corresponds_ofComponents

/-! ## §3 Assignment -/

/-- Assignments to a variable under both its names correspond. -/
theorem corresponds_assign (hρ : scope.Renames ρ scope') (hs : Corresponds ρ scope scope' s s')
    (he : e.Within scope) (ht : assign scope s x e = .ok t)
    (ht' : assign scope' s' (ρ x) (e.rename ρ) = .ok t') : Corresponds ρ scope scope' t t' := by
  cases hs with
  | bottom =>
    obtain ⟨-, rfl⟩ | ⟨_, _, -, h, -⟩ := assign_cases ht
    · obtain ⟨-, rfl⟩ | ⟨_, _, -, h, -⟩ := assign_cases ht'
      · exact .bottom
      · cases h
    · cases h
  | reachable h =>
    obtain ⟨hbottom, -⟩ | ⟨k, _, hk, ⟨⟩, -, rfl⟩ := assign_cases ht
    · cases hbottom
    obtain ⟨hbottom, -⟩ | ⟨k', _, hk', ⟨⟩, -, rfl⟩ := assign_cases ht'
    · cases hbottom
    -- the same interval is stored under both names
    rw [h.range_eq he]
    exact (h.set hρ hk hk' _).corresponds_ofComponents

/-- So does forgetting it. -/
theorem corresponds_forget (hρ : scope.Renames ρ scope') (hs : Corresponds ρ scope scope' s s')
    (ht : forget scope s x = .ok t) (ht' : forget scope' s' (ρ x) = .ok t') :
    Corresponds ρ scope scope' t t' := by
  cases hs with
  | bottom =>
    obtain ⟨-, rfl⟩ | ⟨_, _, -, h, -⟩ := forget_cases ht
    · obtain ⟨-, rfl⟩ | ⟨_, _, -, h, -⟩ := forget_cases ht'
      · exact .bottom
      · cases h
    · cases h
  | reachable h =>
    obtain ⟨hbottom, -⟩ | ⟨k, _, hk, ⟨⟩, -, rfl⟩ := forget_cases ht
    · cases hbottom
    obtain ⟨hbottom, -⟩ | ⟨k', _, hk', ⟨⟩, -, rfl⟩ := forget_cases ht'
    · cases hbottom
    exact .reachable (h.set hρ hk hk' .full)

/-! ## §4 Smallest boxes -/

/-- The store under the names that `ρ` gives to the variables of the scope; all other names have the
value `n`. -/
def carried (ρ : String → String) (scope : Scope) (n : Int) (σ : Store) : Store := fun y =>
  match scope.names.find? fun x => ρ x = y with
  | some x => σ x
  | none => n

/-- Under the new name the carried store has the old value. -/
private theorem carried_apply (hρ : scope.Renames ρ scope') (hx : x ∈ scope.names) (n : Int)
    (σ : Store) :
    carried ρ scope n σ (ρ x) = σ x := by
  unfold carried
  cases hfind : scope.names.find? fun y => ρ y = ρ x with
  | none =>
    have hne := List.find?_eq_none.mp hfind x hx
    simp at hne
  | some y =>
    have hy : ρ y = ρ x := by simpa using List.find?_some hfind
    exact congrArg σ (hρ.injective (List.mem_of_find?_eq_some hfind) hx hy)

private theorem carried_of_forall_ne {y : String} (hy : ∀ x ∈ scope.names, ρ x ≠ y) (n : Int)
    (σ : Store) :
    carried ρ scope n σ y = n := by
  unfold carried
  have hfind : (scope.names.find? fun x => ρ x = y) = none := by simpa using hy
  rw [hfind]

/-- The smallest boxes around two sets of stores correspond if renaming maps the one set to the
other, with any values for the additional variables. -/
theorem corresponds_of_isHull {P P' : Store → Prop} (hρ : scope.Renames ρ scope')
    (ht : IsHull scope P t) (ht' : IsHull scope' P' t') (hdown : ∀ τ, P' τ → P (τ ∘ ρ))
    (hup : ∀ σ, P σ → ∀ n, P' (carried ρ scope n σ)) : Corresponds ρ scope scope' t t' := by
  cases t with
  | bottom =>
    cases t' with
    | bottom => exact .bottom
    | reachable ds =>
      obtain ⟨-, ⟨τ, hτ⟩, -⟩ := ht'
      exact absurd (hdown τ hτ) (ht _)
  | reachable cs =>
    obtain ⟨hcs, ⟨σ, hσ⟩, hhull⟩ := ht
    cases t' with
    | bottom => exact absurd (hup σ hσ 0) (ht' _)
    | reachable ds =>
      obtain ⟨hds, -, hhull'⟩ := ht'
      refine .reachable ⟨hcs, hds, ?_, ?_⟩
      · intro x hx
        -- the variable has the same values under both names
        have hvalues : (fun n => ∃ τ, P' τ ∧ τ (ρ x) = n) = fun n => ∃ σ, P σ ∧ σ x = n := by
          funext n
          apply propext
          constructor
          · rintro ⟨τ, hτ, rfl⟩
            exact ⟨τ ∘ ρ, hdown τ hτ, rfl⟩
          · rintro ⟨σ, hσ, rfl⟩
            exact ⟨_, hup σ hσ 0, carried_apply hρ hx 0 σ⟩
        have hrenamed := hhull' (ρ x) (hρ.mem hx)
        rw [hvalues] at hrenamed
        exact hrenamed.unique (hhull x hx) ⟨σ, hσ, rfl⟩
      · intro y hy hadditional
        -- an additional variable has every value
        have hevery : ∀ n, ∃ τ, P' τ ∧ τ y = n := fun n =>
          ⟨_, hup σ hσ n, carried_of_forall_ne hadditional n σ⟩
        have hfull : Interval.full.IsHull fun n => ∃ τ, P' τ ∧ τ y = n := by
          apply Interval.isHull_of_between Interval.canonical_full
          · exact fun _ _ => Interval.mem_full
          · exact fun n _ => ⟨n, n, hevery n, hevery n, le_rfl, le_rfl⟩
        exact (hhull' y hy).unique hfull (hevery 0)

/-! ## §5 Refinement -/

/-- A store of the renamed box, read through the renaming, is one of the box. -/
private theorem Renamed.contains_comp (h : Renamed ρ scope scope' cs ds)
    (hτ : Contains scope' (reachable ds) τ) : Contains scope (reachable cs) (τ ∘ ρ) :=
  contains_of_forall_mem h.left_length fun x hx => h.lookup_eq hx ▸ (contains_iff.mp hτ).2 (ρ x)

/-- A store of the box, carried over, is one of the renamed box, with any value for the additional
variables. -/
private theorem Renamed.contains_carried (hρ : scope.Renames ρ scope')
    (h : Renamed ρ scope scope' cs ds) (hσ : Contains scope (reachable cs) σ) (n : Int) :
    Contains scope' (reachable ds) (carried ρ scope n σ) := by
  apply contains_of_forall_mem h.right_length
  intro y hy
  by_cases himage : ∃ x ∈ scope.names, ρ x = y
  · obtain ⟨x, hx, rfl⟩ := himage
    rw [carried_apply hρ hx, h.lookup_eq hx]
    exact (contains_iff.mp hσ).2 x
  · rw [h.lookup_full hy fun x hx hxy => himage ⟨x, hx, hxy⟩]
    exact Interval.mem_full

/-- A renamed constraint holds where the constraint does. -/
private theorem holds_rename {c : Constraint} (h : ∀ x ∈ c.expr.occurrences, τ (ρ x) = σ x) :
    (c.rename ρ).Holds τ ↔ c.Holds σ := by
  rw [Constraint.Holds, Constraint.Holds, Constraint.rename, Arith.eval?_rename h]

/-- Whether a refinement leaves anything depends on the range of the expression. -/
theorem refine?_eq_none_congr {c c' : Constraint} (hrelation : c'.relation = c.relation)
    (hrange : c'.expr.range (lookup scope' ds) = c.expr.range (lookup scope cs)) :
    refine? scope' ds c' = none ↔ refine? scope cs c = none := by
  -- only the range is looked at before something is refined
  simp only [refine?, hrelation, hrange]
  cases region? c.relation with
  | some region =>
    dsimp only
    split_ifs
    · exact Iff.rfl
    · cases c'.expr.linear? <;> cases c.expr.linear? <;> simp
  | none =>
    dsimp only
    split_ifs
    · exact Iff.rfl
    · cases c'.expr.linear? <;> cases c.expr.linear? <;> simp

/-- Where the difference keeps a variable, both results are smallest boxes around the stores in
which the constraint holds. -/
theorem Renamed.corresponds_constrain_of_differ {rel : Relation} (hρ : scope.Renames ρ scope')
    (h : Renamed ρ scope scope' cs ds) (hs : WellFormed scope (reachable cs))
    (hs' : WellFormed scope' (reachable ds)) (hl : l.IsAtom ∧ l.Within scope)
    (hr : r.IsAtom ∧ r.Within scope) (hdiffer : l.Differ r)
    (ht : constrain scope (reachable cs) ⟨.sub l r, rel⟩ = .ok t)
    (ht' : constrain scope' (reachable ds) ⟨.sub (l.rename ρ) (r.rename ρ), rel⟩ = .ok t') :
    Corresponds ρ scope scope' t t' := by
  have hwithin : (Arith.sub l r).Within scope := Arith.within_sub hl.2 hr.2
  have hdiffer' := (Arith.differ_rename hρ hl hr).mpr hdiffer
  obtain ⟨f, hlinear, hne, hunit⟩ := Arith.exists_form_of_differ hl.1 hr.1 hdiffer
  obtain ⟨f', hlinear', hne', hunit'⟩ :=
    Arith.exists_form_of_differ (Arith.isAtom_rename hl.1) (Arith.isAtom_rename hr.1) hdiffer'
  have hhull := isHull_constrain (c := ⟨.sub l r, rel⟩) hs hwithin hlinear
    (fun _ _ _ hother => hunit _ (List.mem_filter.mp hother).1) hne ht
  have hhull' := isHull_constrain (c := ⟨.sub (l.rename ρ) (r.rename ρ), rel⟩) hs'
    (Arith.within_rename hρ hwithin) hlinear'
    (fun _ _ _ hother => hunit' _ (List.mem_filter.mp hother).1) hne' ht'
  -- it remains to map the stores in which the constraint holds, in both directions
  apply corresponds_of_isHull hρ hhull hhull'
  · rintro τ ⟨hτ, hholds⟩
    have hrenamed : (Constraint.rename ρ ⟨.sub l r, rel⟩).Holds τ ↔
        Constraint.Holds (τ ∘ ρ) ⟨.sub l r, rel⟩ := holds_rename fun _ _ => rfl
    exact ⟨h.contains_comp hτ, hrenamed.mp hholds⟩
  · rintro σ ⟨hσ, hholds⟩ n
    have hrenamed : (Constraint.rename ρ ⟨.sub l r, rel⟩).Holds (carried ρ scope n σ) :=
      (holds_rename fun x hx =>
        carried_apply hρ (hwithin x (Arith.mem_vars.mpr hx)) n σ).mpr hholds
    exact ⟨h.contains_carried hρ hσ n, hrenamed⟩

/-- Where no variable is left, the test on the range has the same answer, and nothing else happens.
-/
theorem Renamed.corresponds_constrain_of_not_differ {rel : Relation} (hρ : scope.Renames ρ scope')
    (h : Renamed ρ scope scope' cs ds) (hl : l.IsAtom ∧ l.Within scope)
    (hr : r.IsAtom ∧ r.Within scope) (hdiffer : ¬l.Differ r)
    (ht : constrain scope (reachable cs) ⟨.sub l r, rel⟩ = .ok t)
    (ht' : constrain scope' (reachable ds) ⟨.sub (l.rename ρ) (r.rename ρ), rel⟩ = .ok t') :
    Corresponds ρ scope scope' t t' := by
  have hdiffer' := mt (Arith.differ_rename hρ hl hr).mp hdiffer
  obtain ⟨f, hlinear, hterms⟩ := Arith.exists_form_of_not_differ hl.1 hr.1 hdiffer
  obtain ⟨f', hlinear', hterms'⟩ :=
    Arith.exists_form_of_not_differ (Arith.isAtom_rename hl.1) (Arith.isAtom_rename hr.1) hdiffer'
  have hnone : refine? scope' ds ⟨.sub (l.rename ρ) (r.rename ρ), rel⟩ = none ↔
      refine? scope cs ⟨.sub l r, rel⟩ = none :=
    refine?_eq_none_congr rfl (h.range_eq (Arith.within_sub hl.2 hr.2))
  obtain ⟨hbottom, -⟩ | ⟨_, ⟨⟩, -, hrefined⟩ := constrain_cases ht
  · cases hbottom
  obtain ⟨hbottom, -⟩ | ⟨_, ⟨⟩, -, hrefined'⟩ := constrain_cases ht'
  · cases hbottom
  obtain ⟨hfails, rfl⟩ | ⟨refined, hrefine, rfl⟩ := hrefined
  · obtain ⟨-, rfl⟩ | ⟨refined', hrefine', rfl⟩ := hrefined'
    · exact .bottom
    · cases hrefine'.symm.trans (hnone.mpr hfails)
  · obtain ⟨hfails', rfl⟩ | ⟨refined', hrefine', rfl⟩ := hrefined'
    · cases hrefine.symm.trans (hnone.mp hfails')
    · rw [refine?_eq_self hlinear hterms hrefine, refine?_eq_self hlinear' hterms' hrefine']
      exact h.corresponds_ofComponents

/-- Refinement by a relation of a difference to zero. -/
theorem corresponds_constrain_sub {rel : Relation} (hρ : scope.Renames ρ scope')
    (hs : WellFormed scope s) (hs' : WellFormed scope' s')
    (h : Corresponds ρ scope scope' s s') (hl : l.IsAtom ∧ l.Within scope)
    (hr : r.IsAtom ∧ r.Within scope) (ht : constrain scope s ⟨.sub l r, rel⟩ = .ok t)
    (ht' : constrain scope' s' ⟨.sub (l.rename ρ) (r.rename ρ), rel⟩ = .ok t') :
    Corresponds ρ scope scope' t t' := by
  cases h with
  | bottom =>
    obtain ⟨-, rfl⟩ | ⟨_, h, -⟩ := constrain_cases ht
    · obtain ⟨-, rfl⟩ | ⟨_, h, -⟩ := constrain_cases ht'
      · exact .bottom
      · cases h
    · cases h
  | reachable h =>
    by_cases hdiffer : l.Differ r
    · exact h.corresponds_constrain_of_differ hρ hs hs' hl hr hdiffer ht ht'
    · exact h.corresponds_constrain_of_not_differ hρ hl hr hdiffer ht ht'

/-- Refinement by a comparison. -/
theorem corresponds_constrain (hρ : scope.Renames ρ scope') (hs : WellFormed scope s)
    (hs' : WellFormed scope' s') (h : Corresponds ρ scope scope' s s')
    (hl : l.IsAtom ∧ l.Within scope) (hr : r.IsAtom ∧ r.Within scope) (comparator : Comparator)
    (ht : constrain scope s (comparator.constraint l r) = .ok t)
    (ht' : constrain scope' s' (comparator.constraint (l.rename ρ) (r.rename ρ)) = .ok t') :
    Corresponds ρ scope scope' t t' := by
  cases comparator with
  | eq | ne | gt | ge => exact corresponds_constrain_sub hρ hs hs' h hl hr ht ht'
  -- the operands are exchanged on both sides
  | lt | le => exact corresponds_constrain_sub hρ hs hs' h hr hl ht ht'

end Box

end RangeGuard
