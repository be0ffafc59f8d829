import RangeGuard.Proofs.Box.Soundness

/-!
# How far widening can go

Widening moves an end of an interval to infinity or leaves it where it is. So a box has as many
changes before it as it has ends that are not at infinity, and one more while it is bottom. This
number is the *slack* of the box. Joining moves ends outward too, which never brings an end back
from infinity, so it does not increase the slack.

The count is right for proper boxes: bottom, or a nonempty interval for each variable. These are the
boxes that arise in an analysis, and on them no operation on two boxes fails. The middle of the file
shows that every operation gives proper boxes. The operations on one box do so whatever they are
given, because they fit the scope or fail, and collapse a list with an empty component.

The termination of the analysis rests on `Box.slack_widen_lt` and `Box.slack_join_le`, lifted from
one box to the states of all nodes.
-/

namespace RangeGuard

/-! ## §1 The slack of an interval -/

namespace Interval

variable {a b : Interval}

private theorem isEmpty_join (ha : a.isEmpty = false) : (a.join b).isEmpty = false := by
  rw [join, ha, if_neg Bool.false_ne_true]
  split
  · exact ha
  · rw [isEmpty_eq_false_iff] at ha ⊢
    exact (min_le_left _ _).trans (ha.trans (le_max_left _ _))

private theorem isEmpty_widen (ha : a.isEmpty = false) : (a.widen b).isEmpty = false := by
  rw [widen, ha, if_neg Bool.false_ne_true]
  split
  · exact ha
  · rw [isEmpty_eq_false_iff] at ha ⊢
    dsimp only
    split
    · exact Bound.negInf_le _
    · split
      · exact Bound.le_posInf _
      · exact ha

/-- The number of ends that are not at infinity on their side. -/
def slack (i : Interval) : Nat :=
  (if i.low = .negInf then 0 else 1) + (if i.high = .posInf then 0 else 1)

private theorem slack_le_two (i : Interval) : i.slack ≤ 2 := by
  unfold slack
  split <;> split <;> omega

/-- An interval that reaches at least as far has at most the same slack. -/
theorem slack_mono (hlow : b.low ≤ a.low) (hhigh : a.high ≤ b.high) : b.slack ≤ a.slack := by
  -- an end at infinity stays there when the interval grows
  have hnegInf : a.low = .negInf → b.low = .negInf := fun h =>
    Bound.le_antisymm (h ▸ hlow) (Bound.negInf_le _)
  have hposInf : a.high = .posInf → b.high = .posInf := fun h =>
    Bound.le_antisymm (Bound.le_posInf _) (h ▸ hhigh)
  unfold slack
  split <;> split <;> simp_all

/-- Joining does not increase the slack of an interval. -/
theorem slack_join_le (ha : a.isEmpty = false) : (a.join b).slack ≤ a.slack := by
  rw [join, ha, if_neg Bool.false_ne_true]
  split
  · exact le_rfl
  · exact slack_mono (min_le_left _ _) (le_max_left _ _)

/-- Widening changes nothing or moves an end to infinity for good. -/
theorem slack_widen_lt (ha : a.isEmpty = false) :
    a.widen b = a ∨ (a.widen b).slack < a.slack := by
  rw [widen, ha, if_neg Bool.false_ne_true]
  split
  · exact .inl rfl
  by_cases hlow : b.low < a.low
  · -- the lower end jumps, and it was not at infinity before
    have hne : a.low ≠ .negInf := fun h => hlow (h ▸ Bound.negInf_le _)
    right
    rw [if_pos hlow]
    simp only [slack, if_neg hne, if_pos]
    split <;> split <;> simp_all
  · -- neither end is passed: the interval stays as it is
    by_cases hhigh : a.high < b.high
    · have hne : a.high ≠ .posInf := fun h => hhigh (h ▸ Bound.le_posInf _)
      right
      rw [if_pos hhigh, if_neg hlow]
      simp only [slack, if_neg hne, if_pos]
      omega
    · left
      rw [if_neg hlow, if_neg hhigh]

end Interval

/-! ## §2 Proper boxes -/

namespace Box

variable {scope : Scope} {a b t : Box} {cs ds : List Interval}

/-- Bottom, or a nonempty interval for each variable. -/
def Proper (scope : Scope) : Box → Prop
  | bottom => True
  | reachable cs => cs.length = scope.size ∧ ∀ i ∈ cs, i.isEmpty = false

/-- Top is proper. -/
theorem proper_top (scope : Scope) : Proper scope (top scope) := by
  refine ⟨List.length_replicate, fun i hi => ?_⟩
  rw [List.eq_of_mem_replicate hi]
  rfl

/-- A list of the right length gives a proper box: empty components collapse it to bottom. -/
theorem proper_ofComponents (hlen : cs.length = scope.size) : Proper scope (ofComponents cs) := by
  unfold ofComponents
  split
  · trivial
  · rename_i hany
    refine ⟨hlen, fun i hi => ?_⟩
    rw [← Bool.not_eq_true]
    exact fun hempty => hany (List.any_eq_true.mpr ⟨i, hi, hempty⟩)

theorem Proper.exists_components (h : Proper scope b) : ∃ o, components? scope b = .ok o := by
  cases b with
  | bottom => exact ⟨none, rfl⟩
  | reachable cs => exact ⟨some cs, if_pos h.1⟩

/-- An operation on the components of two boxes fails only for a wrong number of components. -/
theorem Proper.exists_answer {α : Type} (ha : Proper scope a) (hb : Proper scope b)
    {f : Option (List Interval) → Option (List Interval) → Except Fault α}
    (hf : ∀ o o', ∃ answer, f o o' = .ok answer) :
    ∃ answer, (components? scope a >>= fun o => components? scope b >>= f o) = .ok answer := by
  obtain ⟨o, ho⟩ := ha.exists_components
  obtain ⟨o', ho'⟩ := hb.exists_components
  rw [ho, ho']
  exact hf o o'

/-- A proper box lies in itself, by the domain's own test. -/
theorem le_self (h : Proper scope b) : le scope b b = .ok true := by
  cases b with
  | bottom => rfl
  | reachable cs =>
    have hall : (cs.zip cs).all (fun p => decide (p.1 ≤ p.2)) = true := by
      refine List.all_eq_true.mpr fun p hp => decide_eq_true ?_
      obtain ⟨k, hk⟩ := List.mem_iff_getElem?.mp hp
      obtain ⟨hfst, hsnd⟩ := List.getElem?_zip_eq_some.mp hk
      -- the two components of a pair stand at the same place of one list
      have hsame : p.1 = p.2 := Option.some.inj (hfst.symm.trans hsnd)
      exact hsame ▸ Interval.le_refl p.1
    rw [le, components?, if_pos h.1]
    exact congrArg Except.ok hall

/-- A proper box is equal to itself, as far as the domain can tell. -/
theorem Proper.equal_self (h : Proper scope b) : (domain scope).equal b b = .ok true :=
  Domain.equal_eq_true_iff.mpr ⟨le_self h, le_self h⟩

/-- Proper boxes can be combined, and to a proper box. -/
theorem exists_pointwise (f : Interval → Interval → Interval) (ha : Proper scope a)
    (hb : Proper scope b) : ∃ t, pointwise scope f a b = .ok t ∧ Proper scope t := by
  have hanswer : ∃ t, pointwise scope f a b = .ok t := by
    apply ha.exists_answer hb
    rintro (- | cs) (- | ds) <;> exact ⟨_, rfl⟩
  obtain ⟨t, ht⟩ := hanswer
  refine ⟨t, ht, ?_⟩
  obtain ⟨-, rfl⟩ | ⟨-, rfl⟩ | ⟨cs, ds, -, -, hcs, hds, rfl⟩ := pointwise_cases ht
  · exact hb
  · exact ha
  · exact proper_ofComponents (by rw [List.length_zipWith, hcs, hds, Nat.min_self])

/-! ## §3 Operations on one box -/

/-- Assignment gives a proper box if it answers. -/
theorem proper_assign {x : String} {e : Arith} (ht : assign scope b x e = .ok t) :
    Proper scope t := by
  obtain ⟨-, rfl⟩ | ⟨k, cs, -, -, hlen, rfl⟩ := assign_cases ht
  · trivial
  · exact proper_ofComponents (by rw [List.length_set, hlen])

/-- Forgetting keeps a box proper, since the full interval is not empty. -/
theorem proper_forget {x : String} (h : Proper scope b) (ht : forget scope b x = .ok t) :
    Proper scope t := by
  obtain ⟨-, rfl⟩ | ⟨k, cs, -, rfl, hlen, rfl⟩ := forget_cases ht
  · trivial
  · refine ⟨by rw [List.length_set, hlen], fun i hi => ?_⟩
    rcases List.mem_or_eq_of_mem_set hi with hi | rfl
    · exact h.2 i hi
    · rfl

@[simp] theorem length_update (scope : Scope) (cs : List Interval) (x : String) (i : Interval) :
    (update scope cs x i).length = cs.length := by
  unfold update
  split
  · exact List.length_set
  · rfl

/-- Steps that each keep the number of components keep it together. -/
private theorem length_foldl {terms : List (String × Int)}
    {step : List Interval → String × Int → List Interval}
    (hstep : ∀ cs term, (step cs term).length = cs.length) (cs : List Interval) :
    (terms.foldl step cs).length = cs.length := by
  induction terms generalizing cs with
  | nil => rfl
  | cons term terms ih => rw [List.foldl_cons, ih, hstep]

theorem length_tightenTerm (f : LinearForm) (region : Interval) (cs : List Interval)
    (term : String × Int) : (tightenTerm scope f region cs term).length = cs.length :=
  length_update _ _ _ _

theorem length_tightenRound (f : LinearForm) (region : Interval) (cs : List Interval) :
    (tightenRound scope f region cs).length = cs.length :=
  length_foldl (length_tightenTerm f region) cs

theorem length_tighten (f : LinearForm) (region : Interval) (cs : List Interval) :
    (tighten scope f region cs).length = cs.length := by
  rw [tighten, length_tightenRound, length_tightenRound]

theorem length_excludeTerm (f : LinearForm) (cs : List Interval) (term : String × Int) :
    (excludeTerm scope f cs term).length = cs.length := by
  unfold excludeTerm
  split
  · rfl
  · split
    · exact length_update _ _ _ _
    · rfl

theorem length_exclude (f : LinearForm) (cs : List Interval) :
    (exclude scope f cs).length = cs.length :=
  length_foldl (length_excludeTerm f) cs

/-- Refinement changes components and not their number. -/
theorem length_of_refine? {c : Constraint} {refined : List Interval}
    (h : refine? scope cs c = some refined) : refined.length = cs.length := by
  unfold refine? at h
  dsimp only at h
  -- the relations with a region tighten, the disequality excludes
  split at h
  · split at h
    · cases h
    · split at h
      · exact Option.some.inj h ▸ length_tighten _ _ _
      · exact Option.some.inj h ▸ rfl
  · split at h
    · cases h
    · split at h
      · exact Option.some.inj h ▸ length_exclude _ _
      · exact Option.some.inj h ▸ rfl

/-- Refinement gives a proper box if it answers. -/
theorem proper_constrain {c : Constraint} (ht : constrain scope b c = .ok t) : Proper scope t := by
  obtain ⟨-, rfl⟩ | ⟨cs, -, hlen, ⟨-, rfl⟩ | ⟨refined, hrefine, rfl⟩⟩ := constrain_cases ht
  · trivial
  · trivial
  · exact proper_ofComponents ((length_of_refine? hrefine).trans hlen)

/-! ## §4 The slack of a box -/

/-- The number of changes that widening can still make: one for each end that is not at infinity,
and one more than a box can have for bottom. -/
def slack (scope : Scope) : Box → Nat
  | bottom => 2 * scope.size + 1
  | reachable cs => (cs.map Interval.slack).sum

private theorem sum_slack_le (cs : List Interval) :
    (cs.map Interval.slack).sum ≤ 2 * cs.length := by
  induction cs with
  | nil => exact Nat.zero_le _
  | cons i cs ih =>
    have hi := i.slack_le_two
    simp only [List.map_cons, List.sum_cons, List.length_cons]
    omega

/-- A box that is not bottom has less slack than bottom. -/
theorem slack_lt_of_ne_bottom (h : Proper scope b) (hne : b ≠ bottom) :
    slack scope b < slack scope bottom := by
  cases b with
  | bottom => exact absurd rfl hne
  | reachable cs =>
    have hsum := sum_slack_le cs
    rw [h.1] at hsum
    exact Nat.lt_succ_of_le hsum

theorem ofComponents_eq_reachable (h : ∀ i ∈ cs, i.isEmpty = false) :
    ofComponents cs = reachable cs := by
  unfold ofComponents
  rw [if_neg]
  intro hany
  obtain ⟨i, hi, hempty⟩ := List.any_eq_true.mp hany
  rw [h i hi] at hempty
  cases hempty

private theorem isEmpty_zipWith {f : Interval → Interval → Interval}
    (hf : ∀ {i j : Interval}, i.isEmpty = false → (f i j).isEmpty = false)
    (hcs : ∀ i ∈ cs, i.isEmpty = false) : ∀ i ∈ List.zipWith f cs ds, i.isEmpty = false := by
  intro i hi
  rw [← List.map_uncurry_zip_eq_zipWith] at hi
  obtain ⟨p, hp, rfl⟩ := List.mem_map.mp hi
  exact hf (hcs p.1 (List.of_mem_zip hp).1)

private theorem sum_slack_join_le (hlen : cs.length = ds.length)
    (hcs : ∀ i ∈ cs, i.isEmpty = false) :
    ((List.zipWith Interval.join cs ds).map Interval.slack).sum ≤ (cs.map Interval.slack).sum := by
  induction cs generalizing ds with
  | nil => exact Nat.zero_le _
  | cons i cs ih =>
    cases ds with
    | nil => cases hlen
    | cons j ds =>
      rw [List.forall_mem_cons] at hcs
      have hhead := Interval.slack_join_le (b := j) hcs.1
      have htail := ih (Nat.succ.inj hlen) hcs.2
      simp only [List.zipWith_cons_cons, List.map_cons, List.sum_cons]
      omega

/-- Widening a list component by component changes nothing or lowers the sum of the slacks. -/
private theorem sum_slack_widen_lt (hlen : cs.length = ds.length)
    (hcs : ∀ i ∈ cs, i.isEmpty = false) :
    List.zipWith Interval.widen cs ds = cs ∨
      ((List.zipWith Interval.widen cs ds).map Interval.slack).sum <
        (cs.map Interval.slack).sum := by
  induction cs generalizing ds with
  | nil => exact .inl rfl
  | cons i cs ih =>
    cases ds with
    | nil => cases hlen
    | cons j ds =>
      rw [List.forall_mem_cons] at hcs
      simp only [List.zipWith_cons_cons, List.map_cons, List.sum_cons]
      -- the list is unchanged only if its head and its tail are
      rcases Interval.slack_widen_lt (b := j) hcs.1 with hhead | hhead <;>
        rcases ih (Nat.succ.inj hlen) hcs.2 with htail | htail
      · exact .inl (by rw [hhead, htail])
      · exact .inr (by rw [hhead]; omega)
      · exact .inr (by rw [htail]; omega)
      · exact .inr (by omega)

/-- Joining does not increase the slack of a box. -/
theorem slack_join_le (ha : Proper scope a) (hb : Proper scope b) (ht : join scope a b = .ok t) :
    slack scope t ≤ slack scope a := by
  obtain ⟨rfl, rfl⟩ | ⟨-, rfl⟩ | ⟨cs, ds, rfl, rfl, hcs, hds, rfl⟩ := pointwise_cases ht
  · -- the first box is bottom, so the slack is as large as it can be
    by_cases hne : t = bottom
    · rw [hne]
    · exact (slack_lt_of_ne_bottom hb hne).le
  · exact le_rfl
  · rw [ofComponents_eq_reachable (isEmpty_zipWith Interval.isEmpty_join ha.2)]
    exact sum_slack_join_le (hcs.trans hds.symm) ha.2

/-- Widening changes nothing or decreases the slack. -/
theorem slack_widen_lt (ha : Proper scope a) (hb : Proper scope b)
    (ht : widen scope a b = .ok t) : t = a ∨ slack scope t < slack scope a := by
  obtain ⟨rfl, rfl⟩ | ⟨-, rfl⟩ | ⟨cs, ds, rfl, rfl, hcs, hds, rfl⟩ := pointwise_cases ht
  · by_cases hne : t = bottom
    · exact .inl hne
    · exact .inr (slack_lt_of_ne_bottom hb hne)
  · exact .inl rfl
  · rw [ofComponents_eq_reachable (isEmpty_zipWith Interval.isEmpty_widen ha.2)]
    exact (sum_slack_widen_lt (hcs.trans hds.symm) ha.2).imp_left (congrArg reachable)

end Box

end RangeGuard
