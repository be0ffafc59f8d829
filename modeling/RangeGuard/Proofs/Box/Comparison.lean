import RangeGuard.Proofs.Box.Hull

/-!
# Comparisons give the smallest boxes

A branch compares constants and variables. The difference of two such operands has at most two
terms, with the coefficients `1` and `-1`, so refining a box by a comparison gives the smallest box
around the stores that take the edge. The exception is a variable compared with itself: its
difference is zero, and interval arithmetic does not see that.

## Cases by the operands

| operands                    | form of the difference   | why the result is smallest        |
|-----------------------------|--------------------------|-----------------------------------| |
variable, constant          | one term                 | hull of a form with unit terms    | | two
different variables     | two terms, `1` and `-1`  | hull of a form with unit terms    | | two
constants               | no term                  | all stores pass, or none does     | | the same
variable twice     | no term                  | not claimed                       |

`Arith.Differ` separates the first two rows from the last two, and `isHull_sub` goes through the
table. Operands of a branch that the domain cannot express, because they are not integers or not in
the scope, refine neither side; the branch then keeps the box on both edges.
-/

namespace RangeGuard

/-! ## §1 Differences of operands -/

namespace Arith

variable {l r : Arith}

/-- A variable is left in the difference of two operands: they are neither both constants nor the
same variable. -/
def Differ : Arith → Arith → Prop
  | var x, var y => x ≠ y
  | const _, const _ => False
  | _, _ => True

/-- The difference of two operands in which a variable is left has the coefficients `1` and `-1`. -/
theorem exists_form_of_differ (hl : l.IsAtom) (hr : r.IsAtom) (h : l.Differ r) :
    ∃ f, (sub l r).linear? = some f ∧ f.terms ≠ [] ∧
      ∀ term ∈ f.terms, term.2 = 1 ∨ term.2 = -1 := by
  cases l with
  | const m =>
    cases r with
    | const n => exact h.elim
    | var y =>
      refine ⟨⟨[(y, -1)], m⟩, ?_, by simp, by simp⟩
      simp [linear?, LinearForm.ofConstant, LinearForm.ofVariable, LinearForm.scaled,
        LinearForm.plus, LinearForm.addTerm]
    | _ => exact hr.elim
  | var x =>
    cases r with
    | const n =>
      refine ⟨⟨[(x, 1)], -n⟩, ?_, by simp, by simp⟩
      simp [linear?, LinearForm.ofConstant, LinearForm.ofVariable, LinearForm.scaled,
        LinearForm.plus]
    | var y =>
      have hyx : y ≠ x := Ne.symm h
      -- the two terms are sorted by name
      refine ⟨⟨if y < x then [(y, -1), (x, 1)] else [(x, 1), (y, -1)], 0⟩, ?_, ?_, ?_⟩
      · simp [linear?, LinearForm.ofVariable, LinearForm.scaled, LinearForm.plus,
          LinearForm.addTerm, hyx]
      · split <;> simp
      · split <;> simp
    | _ => exact hr.elim
  | _ => exact hl.elim

/-- The difference of two operands in which no variable is left is constant. -/
theorem exists_form_of_not_differ (hl : l.IsAtom) (hr : r.IsAtom) (h : ¬ l.Differ r) :
    ∃ f, (sub l r).linear? = some f ∧ f.terms = [] := by
  cases l with
  | const m =>
    cases r with
    | const n =>
      refine ⟨⟨[], m - n⟩, ?_, rfl⟩
      simp [linear?, LinearForm.ofConstant, LinearForm.scaled, LinearForm.plus, Int.sub_eq_add_neg]
    | var y => exact (h trivial).elim
    | _ => exact hr.elim
  | var x =>
    cases r with
    | const n => exact (h trivial).elim
    | var y =>
      obtain rfl : x = y := Classical.not_not.mp h
      refine ⟨⟨[], 0⟩, ?_, rfl⟩
      simp [linear?, LinearForm.ofVariable, LinearForm.scaled, LinearForm.plus,
        LinearForm.addTerm]
    | _ => exact hr.elim
  | _ => exact hl.elim

end Arith

namespace Box

variable {scope : Scope} {b s t : Box} {cs refined : List Interval} {P : Store → Prop} {σ : Store}
  {l r : Arith} {c : Constraint} {f : LinearForm} {rel : Relation} {m n : Int}

/-! ## §2 Differences without a variable -/

/-- A form without terms changes no component. -/
theorem refine?_eq_self (hlinear : c.expr.linear? = some f) (hterms : f.terms = [])
    (h : refine? scope cs c = some refined) : refined = cs := by
  obtain ⟨region, -, -, rfl⟩ | ⟨-, -, rfl⟩ := refine?_cases h
  · simp [hlinear, tighten, tightenRound, hterms]
  · simp [hlinear, exclude, hterms]

/-- A well-formed box is the smallest one around its own stores. -/
private theorem isHull_self (h : WellFormed scope (reachable cs)) :
    IsHull scope (Contains scope (reachable cs)) (reachable cs) := by
  refine ⟨h.1, h.exists_contains, fun x _ => ?_⟩
  obtain ⟨σ, hσ⟩ := h.exists_contains
  apply Interval.isHull_of_between (h.canonical_lookup x)
  · rintro _ ⟨τ, hτ, rfl⟩
    exact (contains_iff.mp hτ).2 x
  · intro n hn
    have hattained : ∃ τ, Contains scope (reachable cs) τ ∧ τ x = n :=
      ⟨σ.set x n, contains_store_set hσ hn, if_pos rfl⟩
    exact ⟨n, n, hattained, hattained, le_rfl, le_rfl⟩

/-- A difference of constants has one value. -/
private theorem range_sub_const (ρ : String → Interval) :
    (Arith.sub (.const m) (.const n)).range ρ = .point (m - n) :=
  Interval.point_sub_eq (Interval.isEmpty_point n) m

/-- A comparison of constants holds in all stores or in none. -/
theorem isHull_constrain_const (hb : WellFormed scope b)
    (ht : constrain scope b ⟨.sub (.const m) (.const n), rel⟩ = .ok t) :
    IsHull scope (fun σ => Contains scope b σ ∧
      Constraint.Holds σ ⟨.sub (.const m) (.const n), rel⟩) t := by
  obtain ⟨rfl, rfl⟩ | ⟨cs, rfl, -, ⟨hnone, rfl⟩ | ⟨refined, hrefined, rfl⟩⟩ := constrain_cases ht
  · exact fun σ hσ => hσ.1
  · exact fun σ hσ => not_holds_of_refine?_eq_none hnone hσ.1 hσ.2
  · obtain ⟨f, hlinear, hterms⟩ :=
      Arith.exists_form_of_not_differ (l := .const m) (r := .const n) trivial trivial id
    obtain rfl := refine?_eq_self hlinear hterms hrefined
    -- the refinement has passed the test on the range, which is the one difference
    have hholds : rel.Holds (m - n) := by
      obtain ⟨region, hregion, hmeet, -⟩ | ⟨rfl, hzero, -⟩ := refine?_cases hrefined
      · rw [range_sub_const] at hmeet
        obtain ⟨v, hv⟩ := Interval.exists_mem_of_canonical
          ((Interval.canonical_point (m - n)).meet (canonical_region hregion)) hmeet
        obtain ⟨hpoint, hmem⟩ := Interval.mem_meet.mp hv
        exact holds_of_mem_region hregion (Interval.mem_point.mp hpoint ▸ hmem)
      · rw [range_sub_const] at hzero
        exact fun hdiff => hzero (congrArg Interval.point hdiff)
    rw [ofComponents_eq_reachable hb.proper.2]
    exact (isHull_self hb).congr fun σ => ⟨fun hσ => ⟨hσ, _, rfl, hholds⟩, And.left⟩

/-! ## §3 Comparisons -/

/-- Refinement by a relation of a difference to zero, unless a variable is taken from itself. -/
theorem isHull_sub (hb : WellFormed scope b) (hl : l.IsAtom ∧ l.Within scope)
    (hr : r.IsAtom ∧ r.Within scope) (hapart : ∀ x, l = .var x → r ≠ .var x)
    (ht : constrain scope b ⟨.sub l r, rel⟩ = .ok t) :
    IsHull scope (fun σ => Contains scope b σ ∧ Constraint.Holds σ ⟨.sub l r, rel⟩) t := by
  -- with a variable left the form has unit terms; otherwise the operands are constants
  by_cases hdiffer : l.Differ r
  · obtain ⟨f, hlinear, hne, hunit⟩ := Arith.exists_form_of_differ hl.1 hr.1 hdiffer
    refine isHull_constrain (c := ⟨.sub l r, rel⟩) hb (Arith.within_sub hl.2 hr.2) hlinear ?_ hne ht
    exact fun term _ other hother => hunit other (List.mem_filter.mp hother).1
  · cases l with
    | const m =>
      cases r with
      | const n => exact isHull_constrain_const hb ht
      | var y => exact (hdiffer trivial).elim
      | _ => exact hr.1.elim
    | var x =>
      cases r with
      | const n => exact (hdiffer trivial).elim
      | var y =>
        obtain rfl : x = y := Classical.not_not.mp hdiffer
        exact absurd rfl (hapart x rfl)
      | _ => exact hr.1.elim
    | _ => exact hl.1.elim

/-- Refinement by a comparison of constants and variables, unless a variable is compared with
itself. -/
theorem isHull_constraint (hb : WellFormed scope b) (hl : l.IsAtom ∧ l.Within scope)
    (hr : r.IsAtom ∧ r.Within scope) (hapart : ∀ x, l = .var x → r ≠ .var x)
    (comparator : Comparator) (ht : constrain scope b (comparator.constraint l r) = .ok t) :
    IsHull scope (fun σ => Contains scope b σ ∧ (comparator.constraint l r).Holds σ) t := by
  cases comparator with
  | eq | ne | gt | ge => exact isHull_sub hb hl hr hapart ht
  -- these two are expressed with the operands exchanged
  | lt | le => exact isHull_sub hb hr hl (fun x hx hy => hapart x hy hx) ht

/-- The constraint of a comparison holds if the comparison does. A comparison that holds with the
operands exchanged is written with them exchanged. -/
private theorem constraint_holds_iff {comparator : Comparator} (hl : l.eval? σ = some m)
    (hr : r.eval? σ = some n) :
    (comparator.constraint l r).Holds σ ↔ comparator.Holds m n := by
  constructor
  · intro h
    by_contra hfails
    -- the opposite comparison would hold as well
    have hopposite := Domain.constraint_holds hl hr (Domain.negate_holds.mpr hfails)
    cases comparator <;>
      simp [Comparator.negate, Comparator.constraint, Constraint.Holds, Arith.eval?, hl, hr,
        Relation.Holds] at h hopposite <;> omega
  · exact Domain.constraint_holds hl hr

/-! ## §4 Operands -/

end Box

/-- The operand is a constant or an integer variable of the scope. -/
def Operand.Tracked (scope : Scope) : Operand → Prop
  | const _ => True
  | var v => v.ty = .int ∧ v.name ∈ scope.names

/-- The operands are not the same variable. -/
def Operand.Apart : Operand → Operand → Prop
  | var v, var w => v.name ≠ w.name
  | _, _ => True

namespace Domain

variable {α : Type} {d : Domain α} {σ : Store} {op left right : Operand} {e l r : Arith} {n : Int}

/-- A tracked operand has an expression, whose value is what the operand is read as. -/
theorem exists_operand? (h : op.Tracked d.scope) : ∃ e, d.operand? op = some e := by
  cases op with
  | const n => exact ⟨_, rfl⟩
  | var v => exact ⟨_, if_pos (tracks_iff.mpr h)⟩

/-- The expression of an operand has the values that the operand is read as. -/
private theorem reads_iff_of_operand? (h : d.operand? op = some e) :
    op.Reads σ n ↔ e.eval? σ = some n := by
  refine ⟨eval?_of_operand? h, fun heval => ?_⟩
  cases op with
  | const m =>
    obtain rfl := Option.some.inj h
    exact (Option.some.inj heval).symm
  | var v =>
    simp only [operand?] at h
    split at h
    · obtain rfl := Option.some.inj h
      exact fun _ => (Option.some.inj heval).symm
    · cases h

/-- Operands that are not the same variable have expressions that are not. -/
private theorem apart_of_operand? (hleft : d.operand? left = some l)
    (hright : d.operand? right = some r)
    (h : left.Apart right) (x : String) (hl : l = .var x) : r ≠ .var x := by
  rintro rfl
  subst hl
  cases left with
  | const m => cases hleft
  | var v =>
    cases right with
    | const n => cases hright
    | var w =>
      simp only [operand?] at hleft hright
      split at hleft <;> split at hright <;> simp_all [Operand.Apart]

end Domain

namespace Box

variable {scope : Scope} {b s t : Box} {P : Store → Prop}

/-! ## §5 Branches -/

/-- The smallest well-formed box around the stores with a property. -/
structure Least (scope : Scope) (P : Store → Prop) (b : Box) : Prop where
  /-- All the stores are in the box. -/
  contains : ∀ σ, P σ → Contains scope b σ
  /-- The box lies in every well-formed box with these stores. -/
  le : ∀ t, WellFormed scope t → (∀ σ, P σ → Contains scope t σ) → le scope b t = .ok true
  /-- Without any store the box is bottom. -/
  eq_bottom : (∀ σ, ¬ P σ) → b = bottom

/-- A smallest box in the sense of single intervals is smallest among boxes. -/
theorem IsHull.least (h : IsHull scope P b) : Least scope P b where
  contains _ := h.contains
  le _ ht := h.le ht.proper
  eq_bottom hnone := by
    cases b with
    | bottom => rfl
    | reachable cs =>
      obtain ⟨-, ⟨σ, hσ⟩, -⟩ := h
      exact absurd hσ (hnone σ)

/-- The constraint of a comparison gives the smallest box around the stores that pass it. -/
theorem least_constrain (hs : WellFormed scope s) {left right : Operand} {l r : Arith}
    (hl : l.IsAtom ∧ l.Within scope) (hr : r.IsAtom ∧ r.Within scope)
    (hleft : (domain scope).operand? left = some l)
    (hright : (domain scope).operand? right = some r) (hapart : left.Apart right)
    (comparator : Comparator) (ht : constrain scope s (comparator.constraint l r) = .ok t) :
    Least scope (fun σ => Contains scope s σ ∧
      ∃ a b, left.Reads σ a ∧ right.Reads σ b ∧ comparator.Holds a b) t := by
  have hhull := isHull_constraint hs hl hr (Domain.apart_of_operand? hleft hright hapart)
    comparator ht
  refine (hhull.congr fun σ => and_congr_right fun _ => ?_).least
  -- an operand has one value in each store
  have hvalue : ∀ {e : Arith}, e.IsAtom → ∃ n, e.eval? σ = some n := by
    intro e he
    cases e with
    | const n => exact ⟨n, rfl⟩
    | var x => exact ⟨σ x, rfl⟩
    | _ => exact he.elim
  obtain ⟨m, hm⟩ := hvalue hl.1
  obtain ⟨n, hn⟩ := hvalue hr.1
  rw [constraint_holds_iff hm hn]
  constructor
  · intro hholds
    exact ⟨m, n, (Domain.reads_iff_of_operand? hleft).mpr hm,
      (Domain.reads_iff_of_operand? hright).mpr hn, hholds⟩
  · rintro ⟨a, b, ha, hb, hholds⟩
    rw [Domain.reads_iff_of_operand? hleft, hm] at ha
    rw [Domain.reads_iff_of_operand? hright, hn] at hb
    obtain rfl := Option.some.inj ha
    obtain rfl := Option.some.inj hb
    exact hholds

/-- The two boxes of a branch account for the stores on its two sides. -/
theorem contains_of_condition {comparator : Comparator} {left right : Operand}
    {taken notTaken : Box} {σ : Store} {a b : Int}
    (h : (domain scope).condition s comparator left right = .ok (taken, notTaken))
    (hσ : Contains scope s σ) (ha : left.Reads σ a) (hb : right.Reads σ b) :
    (comparator.Holds a b → Contains scope taken σ) ∧
      (¬ comparator.Holds a b → Contains scope notTaken σ) := by
  have hsound := (sound_domain scope).condition h (describes_restrict_iff.mpr hσ) ha hb
  exact ⟨fun hholds => describes_restrict_iff.mp (hsound.1 hholds),
    fun hfails => describes_restrict_iff.mp (hsound.2 hfails)⟩

/-- A branch answers with two well-formed boxes inside the given one. The first accounts for every
store in which the comparison holds, the second for every store in which it fails. If both operands
are tracked and not the same variable, they are the smallest boxes that do so. -/
theorem condition_least (hs : WellFormed scope s) (comparator : Comparator)
    (left right : Operand) :
    ∃ taken notTaken,
      (domain scope).condition s comparator left right = .ok (taken, notTaken) ∧
      (WellFormed scope taken ∧ WellFormed scope notTaken) ∧
      (∀ σ a b, Contains scope s σ → left.Reads σ a → right.Reads σ b →
        (comparator.Holds a b → Contains scope taken σ) ∧
          (¬ comparator.Holds a b → Contains scope notTaken σ)) ∧
      (le scope taken s = .ok true ∧ le scope notTaken s = .ok true) ∧
      (left.Tracked scope → right.Tracked scope → left.Apart right →
        Least scope (fun σ => Contains scope s σ ∧
          ∃ a b, left.Reads σ a ∧ right.Reads σ b ∧ comparator.Holds a b) taken ∧
        Least scope (fun σ => Contains scope s σ ∧
          ∃ a b, left.Reads σ a ∧ right.Reads σ b ∧ ¬ comparator.Holds a b) notTaken) := by
  rcases Query.operands_cases scope left right with ⟨l, r, hl, hr, hoperands⟩ | hoperands
  · obtain ⟨hleft, hright⟩ := hoperands (domain scope) rfl
    obtain ⟨taken, htaken⟩ := exists_constrain hs.proper
      (Arith.within_constraint comparator hl.2 hr.2)
    obtain ⟨notTaken, hnotTaken⟩ := exists_constrain hs.proper
      (Arith.within_constraint comparator.negate hl.2 hr.2)
    have hcondition : (domain scope).condition s comparator left right = .ok (taken, notTaken) := by
      simp only [Domain.condition, hleft, hright]
      exact bind_eq_ok_iff.mpr ⟨taken, htaken, bind_eq_ok_iff.mpr ⟨notTaken, hnotTaken, rfl⟩⟩
    refine ⟨taken, notTaken, hcondition,
      ⟨(preserves_wellFormed scope).constrain hs htaken,
        (preserves_wellFormed scope).constrain hs hnotTaken⟩,
      fun _ _ _ => contains_of_condition hcondition,
      ⟨constrain_le hs.proper htaken, constrain_le hs.proper hnotTaken⟩, ?_⟩
    intro _ _ hapart
    refine ⟨least_constrain hs hl hr hleft hright hapart comparator htaken, ?_⟩
    -- the other edge is the opposite comparison
    simp only [← Domain.negate_holds]
    exact least_constrain hs hl hr hleft hright hapart comparator.negate hnotTaken
  · -- a comparison that cannot be expressed refines neither side
    have hcondition : (domain scope).condition s comparator left right = .ok (s, s) := by
      unfold Domain.condition
      rcases hoperands (domain scope) rfl with hnone | hnone <;> rw [hnone]
      split <;> simp_all
    refine ⟨s, s, hcondition, ⟨hs, hs⟩, fun _ _ _ => contains_of_condition hcondition,
      ⟨le_self hs.proper, le_self hs.proper⟩, ?_⟩
    -- tracked operands can be expressed, so this case does not arise for them
    intro hleft hright
    obtain ⟨l, hl⟩ := Domain.exists_operand? (d := domain scope) hleft
    obtain ⟨r, hr⟩ := Domain.exists_operand? (d := domain scope) hright
    rcases hoperands (domain scope) rfl with hnone | hnone
    · rw [hl] at hnone
      cases hnone
    · rw [hr] at hnone
      cases hnone

/-- From zero to ten for `x`, and from three to five for `y`. -/
def overlapping : Box :=
  reachable [⟨.finite 0, .finite 10⟩, ⟨.finite 3, .finite 5⟩]

/-- Comparing `x` with `y` cuts `x` on each side at the far end of `y`. -/
theorem condition_least_overlapping :
    WellFormed (Scope.ofNames ["x", "y"]) overlapping ∧
    Least (Scope.ofNames ["x", "y"])
      (fun σ => Contains (Scope.ofNames ["x", "y"]) overlapping σ ∧ ∃ a b,
        (Operand.var ⟨"x", .int⟩).Reads σ a ∧ (Operand.var ⟨"y", .int⟩).Reads σ b ∧
          Comparator.lt.Holds a b)
      (reachable [⟨.finite 0, .finite 4⟩, ⟨.finite 3, .finite 5⟩]) ∧
    Least (Scope.ofNames ["x", "y"])
      (fun σ => Contains (Scope.ofNames ["x", "y"]) overlapping σ ∧ ∃ a b,
        (Operand.var ⟨"x", .int⟩).Reads σ a ∧ (Operand.var ⟨"y", .int⟩).Reads σ b ∧
          ¬ Comparator.lt.Holds a b)
      (reachable [⟨.finite 3, .finite 10⟩, ⟨.finite 3, .finite 5⟩]) := by
  have hs : WellFormed (Scope.ofNames ["x", "y"]) overlapping := by
    unfold WellFormed overlapping
    decide
  obtain ⟨taken, notTaken, hcondition, -, -, -, hleast⟩ :=
    condition_least hs .lt (.var ⟨"x", .int⟩) (.var ⟨"y", .int⟩)
  have hresult : (domain (Scope.ofNames ["x", "y"])).condition overlapping .lt
      (.var ⟨"x", .int⟩) (.var ⟨"y", .int⟩) =
        .ok (reachable [⟨.finite 0, .finite 4⟩, ⟨.finite 3, .finite 5⟩],
          reachable [⟨.finite 3, .finite 10⟩, ⟨.finite 3, .finite 5⟩]) := by decide +kernel
  cases hcondition.symm.trans hresult
  refine ⟨hs, hleast ?_ ?_ ?_⟩
  · exact ⟨rfl, by decide⟩
  · exact ⟨rfl, by decide⟩
  · show "x" ≠ "y"
    decide

end Box

end RangeGuard
