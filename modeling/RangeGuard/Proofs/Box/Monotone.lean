import RangeGuard.Proofs.Box.Order
import RangeGuard.Proofs.Interval.Monotone

/-!
# Operations on boxes are monotone

A larger box has larger results under assignment, forgetting and refinement. For the first two that
is monotonicity of interval arithmetic.

Refinement works on one term of a linear form after the other, and each term makes one component
smaller. A step is not monotone as it stands: on a list that already has an empty component it may
do anything. But an empty component stays empty, and while there is none, the components of the
smaller box stay below those of the larger one. `Box.Beneath` is an invariant of exactly this kind,
and `Box.Beneath.step` is the one place where the argument is made. Both kinds of refinement,
tightening and excluding a value, are folds of such steps.

Refinement by a disequality is monotone only if the range of its expression is not empty. The range
of `0 / x` is empty for `x = 0` and the single value zero for more values of `x`; the smaller box
passes the test for zero and the larger one does not. The hypothesis on ranges in
`Box.constrain_le_constrain` is there for this case, and expressions that divide nowhere satisfy it.
-/

namespace RangeGuard

/-! ## §1 Ranges of expressions -/

/-- Larger ranges of the variables give a larger range of an expression. -/
private theorem Arith.range_le_range {ρ ρ' : String → Interval} (h : ∀ x, ρ x ≤ ρ' x) (e : Arith) :
    e.range ρ ≤ e.range ρ' := by
  induction e with
  | var x => exact h x
  | const n => exact le_rfl
  | add a b iha ihb => exact Interval.add_le_add iha ihb
  | sub a b iha ihb => exact Interval.sub_le_sub iha ihb
  | mul a b iha ihb => exact Interval.mul_le_mul iha ihb
  | div a b iha ihb => exact Interval.tdiv_le_tdiv iha ihb
  | rem a b iha ihb => exact Interval.tmod_le_tmod iha ihb
  | neg a iha => exact Interval.neg_le_neg iha

namespace Interval

variable {a b : Interval}

/-- A sum of nonempty intervals is not empty. -/
private theorem isEmpty_add (ha : a.isEmpty = false) (hb : b.isEmpty = false) :
    (a + b).isEmpty = false := by
  show (Interval.add a b).isEmpty = false
  have hends := Bound.add_le_add (isEmpty_eq_false_iff.mp ha) (isEmpty_eq_false_iff.mp hb)
  rw [Interval.add, ha, hb, Bool.or_self, if_neg Bool.false_ne_true, between,
    if_neg (not_lt.mpr hends)]
  exact isEmpty_eq_false_iff.mpr hends

theorem isEmpty_sub (ha : a.isEmpty = false) (hb : b.isEmpty = false) :
    (a - b).isEmpty = false := by
  show (Interval.sub a b).isEmpty = false
  have hends := Bound.sub_le_sub (isEmpty_eq_false_iff.mp ha) (isEmpty_eq_false_iff.mp hb)
  rw [Interval.sub, ha, hb, Bool.or_self, if_neg Bool.false_ne_true, between,
    if_neg (not_lt.mpr hends)]
  exact isEmpty_eq_false_iff.mpr hends

/-- A product of nonempty intervals is not empty: the hull of four corners never is. -/
private theorem isEmpty_mul (ha : a.isEmpty = false) (hb : b.isEmpty = false) :
    (a * b).isEmpty = false := by
  show (Interval.mul a b).isEmpty = false
  rw [Interval.mul, ha, hb, Bool.or_self, if_neg Bool.false_ne_true, hull, between, if_neg]
  · apply isEmpty_eq_false_iff.mpr
    exact (min_le_right _ _).trans (le_max_right _ _)
  · exact not_lt.mpr ((min_le_right _ _).trans (le_max_right _ _))

end Interval

namespace Box

variable {scope : Scope} {a b s t : Box} {cs ds : List Interval} {x : String}

/-! ## §2 Assignment -/

private theorem set_beneath_set {k : Nat} {i j : Interval} (hcs : cs.length = scope.size)
    (hds : ds.length = scope.size) (hk : scope.position? x = some k)
    (h : ∀ y, lookup scope cs y ≤ lookup scope ds y) (hij : i ≤ j) :
    Beneath scope (cs.set k i) (ds.set k j) := by
  refine ⟨by rw [List.length_set, hcs], by rw [List.length_set, hds], ?_⟩
  intro _ y
  rw [lookup_set hcs hk, lookup_set hds hk]
  split
  · exact hij
  · exact h y

/-- Assignment is monotone. -/
theorem assign_le_assign {e : Arith} (hle : le scope a b = .ok true)
    (hs : assign scope a x e = .ok s) (ht : assign scope b x e = .ok t) :
    le scope s t = .ok true := by
  obtain ⟨-, rfl⟩ | ⟨k, cs, hk, rfl, hcs, rfl⟩ := assign_cases hs
  · exact bottom_le (proper_assign ht)
  obtain ⟨rfl, -⟩ | ⟨k', ds, hk', rfl, hds, rfl⟩ := assign_cases ht
  · cases eq_bottom_of_le hle
  -- both assignments are at the position of the same variable
  obtain rfl := Option.some.inj (hk.symm.trans hk')
  have hlook := (le_reachable_iff hcs hds).mp hle
  exact ofComponents_le_ofComponents
    (set_beneath_set hcs hds hk hlook (Arith.range_le_range hlook e))

/-- Forgetting is monotone. -/
theorem forget_le_forget (ha : Proper scope a) (hb : Proper scope b)
    (hle : le scope a b = .ok true) (hs : forget scope a x = .ok s)
    (ht : forget scope b x = .ok t) : le scope s t = .ok true := by
  have hsne := proper_forget ha hs
  have htne := proper_forget hb ht
  obtain ⟨-, rfl⟩ | ⟨k, cs, hk, rfl, hcs, rfl⟩ := forget_cases hs
  · exact bottom_le htne
  obtain ⟨rfl, -⟩ | ⟨k', ds, hk', rfl, hds, rfl⟩ := forget_cases ht
  · cases eq_bottom_of_le hle
  obtain rfl := Option.some.inj (hk.symm.trans hk')
  have hlook := (le_reachable_iff hcs hds).mp hle
  -- both results are proper, so that they may be compared as collapsed lists
  rw [← ofComponents_eq_reachable hsne.2, ← ofComponents_eq_reachable htne.2]
  exact ofComponents_le_ofComponents (set_beneath_set hcs hds hk hlook le_rfl)

/-! ## §3 Steps of a refinement -/

/-- A step that makes components smaller and is monotone while none of them is empty. -/
theorem Beneath.step {f : List Interval → List Interval} (h : Beneath scope cs ds)
    (hlength : ∀ cs, (f cs).length = cs.length)
    (hshrinks : ∀ x, lookup scope (f cs) x ≤ lookup scope cs x)
    (hmono : (∀ x, (lookup scope cs x).isEmpty = false) →
      (∀ x, lookup scope cs x ≤ lookup scope ds x) →
      ∀ x, lookup scope (f cs) x ≤ lookup scope (f ds) x) :
    Beneath scope (f cs) (f ds) := by
  refine ⟨(hlength cs).trans h.left_length, (hlength ds).trans h.right_length, ?_⟩
  intro hne
  -- the step made the components smaller, so none of them was empty before it
  have hne' : ∀ x, (lookup scope cs x).isEmpty = false := fun x =>
    Interval.isEmpty_eq_false_of_le (hshrinks x) (hne x)
  exact hmono hne' (h.lookup_le hne')

/-- Replacing an interval by a smaller one makes no look-up larger. -/
theorem lookup_update_le {i : Interval} (hcs : cs.length = scope.size)
    (hi : i ≤ lookup scope cs x) (y : String) :
    lookup scope (update scope cs x i) y ≤ lookup scope cs y := by
  by_cases hx : x ∈ scope.names
  · rw [lookup_update hcs hx]
    split
    · rename_i hyx
      exact hyx ▸ hi
    · exact le_rfl
  · rw [update, Scope.position?_eq_none_iff.mpr hx]

private theorem lookup_update_le_lookup_update {i j : Interval} (hcs : cs.length = scope.size)
    (hds : ds.length = scope.size) (h : ∀ y, lookup scope cs y ≤ lookup scope ds y) (hij : i ≤ j)
    (y : String) : lookup scope (update scope cs x i) y ≤ lookup scope (update scope ds x j) y := by
  by_cases hx : x ∈ scope.names
  · rw [lookup_update hcs hx, lookup_update hds hx]
    split
    · exact hij
    · exact h y
  · rw [update, update, Scope.position?_eq_none_iff.mpr hx]
    exact h y

/-- Larger components give a larger range of the rest of a form. -/
theorem restRange_le_restRange (h : ∀ y, lookup scope cs y ≤ lookup scope ds y) (f : LinearForm)
    (x : String) : restRange scope cs f x ≤ restRange scope ds f x := by
  unfold restRange
  apply List.foldl_rel le_rfl
  intro term _ i j hij
  split
  · exact hij
  · exact Interval.add_le_add hij (Interval.mul_le_mul le_rfl (h term.1))

/-- The rest of a form has values if all variables have. -/
theorem isEmpty_restRange (h : ∀ y, (lookup scope cs y).isEmpty = false) (f : LinearForm)
    (x : String) : (restRange scope cs f x).isEmpty = false := by
  unfold restRange
  refine List.foldlRecOn (motive := fun i : Interval => i.isEmpty = false) f.terms _ ?_ ?_
  · exact Interval.isEmpty_eq_false_iff.mpr (Bound.le_refl _)
  · intro i hi term _
    split
    · exact hi
    · exact Interval.isEmpty_add hi
        (Interval.isEmpty_mul (Interval.isEmpty_eq_false_iff.mpr (Bound.le_refl _)) (h term.1))

/-! ## §4 Tightening -/

/-- Solving for one variable is monotone. -/
private theorem beneath_tightenTerm {f : LinearForm} (hf : f.Normal) {region : Interval}
    {term : String × Int} (hterm : term ∈ f.terms) (h : Beneath scope cs ds) :
    Beneath scope (tightenTerm scope f region cs term) (tightenTerm scope f region ds term) := by
  apply h.step (f := fun cs => tightenTerm scope f region cs term)
  · exact fun _ => length_update _ _ _ _
  · exact lookup_update_le h.left_length Interval.meet_le_left
  · intro _ hle
    apply lookup_update_le_lookup_update h.left_length h.right_length hle
    apply Interval.meet_le_meet (hle term.1)
    -- what is left for the variable is a quotient by a coefficient other than zero
    apply Interval.divExact_le_divExact (hf.nonzero _ hterm)
    exact Interval.sub_le_sub le_rfl (restRange_le_restRange hle f term.1)

private theorem beneath_tighten {f : LinearForm} (hf : f.Normal) (region : Interval)
    (h : Beneath scope cs ds) :
    Beneath scope (tighten scope f region cs) (tighten scope f region ds) := by
  have hround : ∀ {cs ds}, Beneath scope cs ds →
      Beneath scope (tightenRound scope f region cs) (tightenRound scope f region ds) := by
    intro cs ds h
    -- the two folds run side by side, related by the invariant
    exact List.foldl_rel h fun term hterm _ _ h => beneath_tightenTerm hf hterm h
  exact hround (hround h)

/-! ## §5 Excluding a value -/

/-- Cutting off an end makes an interval smaller. -/
theorem trimEnd_le (i : Interval) (n : Int) : trimEnd i n ≤ i := by
  unfold trimEnd
  split
  · rename_i hlow
    refine (Interval.between_le_between ?_ le_rfl).trans Interval.between_ends_le
    rw [hlow]
    exact Bound.finite_le_finite.mpr (by omega)
  · split
    · rename_i hhigh
      refine (Interval.between_le_between le_rfl ?_).trans Interval.between_ends_le
      rw [hhigh]
      exact Bound.finite_le_finite.mpr (by omega)
    · exact le_rfl

/-- Cutting one value off the ends is monotone: an end at which the larger interval is cut lies at
or beyond the end of the smaller one. -/
theorem trimEnd_le_trimEnd {i j : Interval} (hi : i.isEmpty = false) (h : i ≤ j) (n : Int) :
    trimEnd i n ≤ trimEnd j n := by
  obtain ⟨hlow, hhigh⟩ := (Interval.le_iff_of_nonempty hi).mp h
  -- by the end at which the larger interval is cut; the smaller one may be cut elsewhere or not at
  -- all
  by_cases hjlow : j.low = .finite n
  · rw [show trimEnd j n = .between (.finite (n + 1)) j.high from if_pos hjlow]
    by_cases hilow : i.low = .finite n
    · rw [show trimEnd i n = .between (.finite (n + 1)) i.high from if_pos hilow]
      exact Interval.between_le_between le_rfl hhigh
    · -- the smaller interval starts above the value already
      have habove : .finite (n + 1) ≤ i.low := Bound.succ_le_of_ne (hjlow ▸ hlow) hilow
      calc trimEnd i n ≤ i := trimEnd_le i n
        _ = .between i.low i.high := (Interval.between_ends hi).symm
        _ ≤ .between (.finite (n + 1)) j.high := Interval.between_le_between habove hhigh
  · by_cases hjhigh : j.high = .finite n
    · rw [show trimEnd j n = .between j.low (.finite (n - 1)) from
        (if_neg hjlow).trans (if_pos hjhigh)]
      by_cases hilow : i.low = .finite n
      · -- the smaller interval is the value alone, and nothing is left of it
        rw [show trimEnd i n = .between (.finite (n + 1)) i.high from if_pos hilow]
        have hcross : i.high < .finite (n + 1) :=
          (hhigh.trans hjhigh.le).trans_lt (Bound.finite_lt_finite.mpr (by omega))
        rw [Interval.between, if_pos hcross]
        exact Interval.empty_le
      · by_cases hihigh : i.high = .finite n
        · rw [show trimEnd i n = .between i.low (.finite (n - 1)) from
            (if_neg hilow).trans (if_pos hihigh)]
          exact Interval.between_le_between hlow le_rfl
        · have hbelow : i.high ≤ .finite (n - 1) := Bound.le_pred_of_ne (hjhigh ▸ hhigh) hihigh
          calc trimEnd i n ≤ i := trimEnd_le i n
            _ = .between i.low i.high := (Interval.between_ends hi).symm
            _ ≤ .between j.low (.finite (n - 1)) := Interval.between_le_between hlow hbelow
    · rw [show trimEnd j n = j from (if_neg hjlow).trans (if_neg hjhigh)]
      exact (trimEnd_le i n).trans h

theorem excludeTerm_le (f : LinearForm) (hcs : cs.length = scope.size) (term : String × Int)
    (y : String) : lookup scope (excludeTerm scope f cs term) y ≤ lookup scope cs y := by
  unfold excludeTerm
  split
  · exact le_rfl
  · split
    · exact lookup_update_le hcs (trimEnd_le _ _) y
    · exact le_rfl

/-- Excluding a value of one variable is monotone. -/
private theorem beneath_excludeTerm (f : LinearForm) (term : String × Int)
    (h : Beneath scope cs ds) :
    Beneath scope (excludeTerm scope f cs term) (excludeTerm scope f ds term) := by
  apply h.step (length_excludeTerm f · term) (excludeTerm_le f h.left_length term)
  intro hne hle y
  have hshrinks := excludeTerm_le f h.left_length term y
  cases hrest : (restRange scope ds f term.1).constant? with
  | none =>
    rw [show excludeTerm scope f ds term = ds by simp only [excludeTerm, hrest]]
    exact hshrinks.trans (hle y)
  | some rest =>
    -- the rest of the form has the same single value in the smaller list
    have hle' := restRange_le_restRange hle f term.1
    rw [Interval.constant?_eq_some_iff.mp hrest] at hle'
    have hrest' := Interval.constant?_eq_some_iff.mpr
      (Interval.eq_point_of_le (isEmpty_restRange hne f term.1) hle')
    simp only [excludeTerm, hrest, hrest']
    split
    · apply lookup_update_le_lookup_update h.left_length h.right_length hle
      exact trimEnd_le_trimEnd (hne term.1) (hle term.1) _
    · exact hle y

private theorem beneath_exclude (f : LinearForm) (h : Beneath scope cs ds) :
    Beneath scope (exclude scope f cs) (exclude scope f ds) :=
  List.foldl_rel h fun term _ _ _ h => beneath_excludeTerm f term h

/-! ## §6 Refinement by a constraint -/

/-- If a larger list of components leaves no value that satisfies the constraint, neither does a
smaller one; otherwise the refined lists lie in each other. -/
theorem refine?_beneath {c : Constraint} (h : Beneath scope cs ds)
    (hne : ∀ x, (lookup scope cs x).isEmpty = false)
    (hrange : c.relation = .ne → (c.expr.range (lookup scope cs)).isEmpty = false)
    {refined : List Interval} (hrefined : refine? scope cs c = some refined) :
    ∃ refined', refine? scope ds c = some refined' ∧ Beneath scope refined refined' := by
  have hvalue := Arith.range_le_range (h.lookup_le hne) c.expr
  unfold refine? at hrefined ⊢
  dsimp only at hrefined ⊢
  cases hregion : region? c.relation with
  | some region =>
    simp only [hregion] at hrefined ⊢
    split at hrefined
    · cases hrefined
    · rename_i hmeet
      -- the larger range meets the region because the smaller one does
      rw [if_neg fun hempty => hmeet
        (Interval.isEmpty_of_le (Interval.meet_le_meet hvalue le_rfl) hempty)]
      split at hrefined
      · rename_i f hlinear
        obtain rfl := Option.some.inj hrefined
        exact ⟨_, rfl, beneath_tighten (Arith.normal_of_linear? hlinear) region h⟩
      · exact ⟨ds, rfl, Option.some.inj hrefined ▸ h⟩
  | none =>
    simp only [hregion] at hrefined ⊢
    split at hrefined
    · cases hrefined
    · rename_i hzero
      -- a range inside zero alone that is not empty is zero alone
      have hzero' : c.expr.range (lookup scope ds) ≠ .point 0 := by
        intro hpoint
        rw [hpoint] at hvalue
        exact hzero (Interval.eq_point_of_le (hrange (eq_ne_of_region? hregion)) hvalue)
      rw [if_neg hzero']
      split at hrefined
      · obtain rfl := Option.some.inj hrefined
        exact ⟨_, rfl, beneath_exclude _ h⟩
      · exact ⟨ds, rfl, Option.some.inj hrefined ▸ h⟩

/-- Refinement is monotone. The range of a disequality must not be empty: an empty range passes the
test for zero alone that a larger range fails. -/
theorem constrain_le_constrain {c : Constraint} (ha : Proper scope a)
    (hle : le scope a b = .ok true) (hrange : c.relation = .ne → ∀ cs, a = reachable cs →
      (∀ x, (lookup scope cs x).isEmpty = false) → (c.expr.range (lookup scope cs)).isEmpty = false)
    (hs : constrain scope a c = .ok s) (ht : constrain scope b c = .ok t) :
    le scope s t = .ok true := by
  obtain ⟨-, rfl⟩ | ⟨cs, rfl, hcs, ⟨-, rfl⟩ | ⟨refined, hrefined, rfl⟩⟩ := constrain_cases hs
  · exact bottom_le (proper_constrain ht)
  · exact bottom_le (proper_constrain ht)
  obtain ⟨rfl, -⟩ | ⟨ds, rfl, hds, hrefined'⟩ := constrain_cases ht
  · cases eq_bottom_of_le hle
  have hlook := (le_reachable_iff hcs hds).mp hle
  have hne : ∀ x, (lookup scope cs x).isEmpty = false := isEmpty_lookup ha.2
  obtain ⟨refined', hsome, hbeneath⟩ :=
    refine?_beneath ⟨hcs, hds, fun _ => hlook⟩ hne (fun h => hrange h cs rfl hne) hrefined
  -- the larger box is not rejected if the smaller one is not
  obtain ⟨hnone, -⟩ | ⟨refined'', hsome', rfl⟩ := hrefined'
  · rw [hsome] at hnone
    cases hnone
  · obtain rfl := Option.some.inj (hsome.symm.trans hsome')
    exact ofComponents_le_ofComponents hbeneath

end Box

end RangeGuard
