import RangeGuard.Proofs.Box.Reduction

/-!
# The lattice of boxes

The well-formed boxes over a scope stand for sets of stores, and each of these sets has one box
only. The test for inclusion compares the sets, so it is a partial order, and two boxes that the
domain finds equal are written in the same way.

- *Join* is the least upper bound of this order. It does not stand for the union, which need not be
  a box.
- *Meet* is the greatest lower bound, and with it exactly the intersection: a common part with an
  empty component has no stores, and collapses to bottom.
- *Top* and *bottom* are the greatest and the least box. A scope without names has these two boxes
  and no others.

The order is put on the subtype `Box.Over` of well-formed boxes. On arbitrary boxes the domain's
test is not even reflexive, because a list of the wrong length has no answer.
-/

namespace RangeGuard

namespace Box

variable {scope : Scope} {a b t : Box}

/-- The stores that a box stands for. -/
def stores (scope : Scope) (b : Box) : Set Store := {σ | Contains scope b σ}

/-! ## The common part -/

/-- Two boxes are met component by component, unless one of them is bottom. -/
theorem meet_cases (h : meet scope a b = .ok t) :
    ((a = bottom ∨ b = bottom) ∧ t = bottom) ∨
    ∃ cs ds, a = reachable cs ∧ b = reachable ds ∧ cs.length = scope.size ∧
      ds.length = scope.size ∧ t = ofComponents (List.zipWith Interval.meet cs ds) := by
  obtain ⟨_, ha, h⟩ := bind_eq_ok_iff.mp h
  obtain ⟨_, hb, h⟩ := bind_eq_ok_iff.mp h
  obtain ⟨rfl, rfl⟩ | ⟨cs, rfl, hcs, rfl⟩ := components?_eq_ok_iff.mp ha
  · exact .inl ⟨.inl rfl, (Except.ok.inj h).symm⟩
  · obtain ⟨rfl, rfl⟩ | ⟨ds, rfl, hds, rfl⟩ := components?_eq_ok_iff.mp hb
    · exact .inl ⟨.inr rfl, (Except.ok.inj h).symm⟩
    · exact .inr ⟨cs, ds, rfl, rfl, hcs, hds, (Except.ok.inj h).symm⟩

/-- The meet of proper boxes answers. -/
private theorem exists_meet (ha : Proper scope a) (hb : Proper scope b) :
    ∃ t, meet scope a b = .ok t := by
  apply ha.exists_answer hb
  rintro (- | cs) (- | ds) <;> exact ⟨_, rfl⟩

/-- The meet of well-formed boxes is well-formed. -/
theorem wellFormed_meet (ha : WellFormed scope a) (hb : WellFormed scope b)
    (ht : meet scope a b = .ok t) : WellFormed scope t := by
  obtain ⟨-, rfl⟩ | ⟨cs, ds, rfl, rfl, hcs, hds, rfl⟩ := meet_cases ht
  · trivial
  · apply wellFormed_ofComponents (by simp [hcs, hds])
    exact canonical_zipWith Interval.Canonical.meet ha.canonical hb.canonical

/-- The common part has exactly the common stores. -/
theorem stores_meet (ht : meet scope a b = .ok t) :
    stores scope t = stores scope a ∩ stores scope b := by
  ext σ
  show Contains scope t σ ↔ Contains scope a σ ∧ Contains scope b σ
  obtain ⟨rfl | rfl, rfl⟩ | ⟨cs, ds, rfl, rfl, hcs, hds, rfl⟩ := meet_cases ht
  · simp [Contains]
  · simp [Contains]
  · have hlen : (List.zipWith Interval.meet cs ds).length = scope.size := by simp [hcs, hds]
    rw [contains_ofComponents, contains_iff, contains_iff, contains_iff]
    simp only [hlen, hcs, hds, true_and, ← forall_and]
    apply forall_congr'
    intro x
    -- outside the scope every value is allowed on both sides
    by_cases hx : x ∈ scope.names
    · rw [lookup_zipWith Interval.meet hcs hds hx, Interval.mem_meet]
    · simp [lookup_of_not_mem hx]

/-! ## The order -/

/-- The well-formed boxes over a scope. -/
abbrev Over (scope : Scope) : Type := { b : Box // WellFormed scope b }

/-- Boxes are ordered by the domain's own test for inclusion. -/
instance : PartialOrder (Over scope) where
  le a b := le scope a.1 b.1 = .ok true
  le_refl a := le_self a.2.proper
  le_trans _ _ c hab hbc := le_trans c.2.proper hab hbc
  le_antisymm a b hab hba := Subtype.ext (le_antisymm a.2.proper b.2.proper hab hba)

namespace Over

variable {a b t : Over scope}

/-- Inclusion of boxes is inclusion of stores. -/
private theorem le_iff : a ≤ b ↔ stores scope a.1 ⊆ stores scope b.1 :=
  ⟨fun h _ hσ => contains_of_le h hσ, fun h => le_of_forall_contains a.2 b.2 fun _ hσ => h hσ⟩

/-- The join is the least upper bound. -/
private theorem isLUB_of_join (ht : join scope a.1 b.1 = .ok t.1) : IsLUB {a, b} t := by
  obtain ⟨hleft, hright⟩ := le_join a.2.proper b.2.proper ht
  constructor
  · rintro c (rfl | rfl)
    · exact hleft
    · exact hright
  · intro c hc
    apply join_le c.2.proper ht
    · exact hc (.inl rfl)
    · exact hc (.inr rfl)

/-- The meet is the greatest lower bound. -/
private theorem isGLB_of_meet (ht : meet scope a.1 b.1 = .ok t.1) : IsGLB {a, b} t := by
  have hstores := stores_meet ht
  constructor
  · rintro c (rfl | rfl)
    · exact le_iff.mpr (hstores ▸ Set.inter_subset_left)
    · exact le_iff.mpr (hstores ▸ Set.inter_subset_right)
  · -- a box below both has no store that is not common
    intro c hc
    rw [le_iff, hstores]
    exact Set.subset_inter (le_iff.mp (hc (.inl rfl))) (le_iff.mp (hc (.inr rfl)))

/-- The domain finds two well-formed boxes equal if they are the same box. -/
theorem exists_equal (a b : Over scope) :
    ∃ answer, (domain scope).equal a.1 b.1 = .ok answer ∧ (answer = true ↔ a.1 = b.1) := by
  have hanswer : ∃ answer, (domain scope).equal a.1 b.1 = .ok answer := by
    obtain ⟨included, hle⟩ := exists_le a.2.proper b.2.proper
    -- a first inclusion that fails settles the matter, and the second one is not asked for
    cases included with
    | false => exact ⟨false, bind_eq_ok_iff.mpr ⟨false, hle, rfl⟩⟩
    | true =>
      obtain ⟨answer, hback⟩ := exists_le b.2.proper a.2.proper
      exact ⟨answer, bind_eq_ok_iff.mpr ⟨true, hle, hback⟩⟩
  obtain ⟨answer, hequal⟩ := hanswer
  refine ⟨answer, hequal, ?_⟩
  rw [← Except.ok.injEq, ← hequal, Domain.equal_eq_true_iff]
  constructor
  · exact fun ⟨hab, hba⟩ => le_antisymm a.2.proper b.2.proper hab hba
  · intro heq
    rw [← heq]
    exact ⟨le_self a.2.proper, le_self a.2.proper⟩

end Over

/-- The well-formed boxes over a scope form a lattice of sets of stores. The test for inclusion is a
partial order and compares the sets, and the domain finds two boxes equal if they are the same box.
The join is the least upper bound. The meet is the greatest lower bound and stands for the
intersection. Top and bottom are the greatest and the least box. The answers on how two canonical
intervals lie to each other are likewise about their sets of integers. -/
theorem lattice_of_stores (scope : Scope) :
    IsPartialOrder (Over scope) (fun a b => le scope a.1 b.1 = .ok true) ∧
    (∀ a b : Over scope,
      (∃ answer, le scope a.1 b.1 = .ok answer ∧
        (answer = true ↔ stores scope a.1 ⊆ stores scope b.1)) ∧
      (∃ answer, (domain scope).equal a.1 b.1 = .ok answer ∧ (answer = true ↔ a.1 = b.1)) ∧
      (∃ t : Over scope, join scope a.1 b.1 = .ok t.1 ∧ IsLUB {a, b} t) ∧
      (∃ t : Over scope, meet scope a.1 b.1 = .ok t.1 ∧ IsGLB {a, b} t ∧
        stores scope t.1 = stores scope a.1 ∩ stores scope b.1)) ∧
    IsTop (⟨top scope, wellFormed_top scope⟩ : Over scope) ∧
    IsBot (⟨bottom, trivial⟩ : Over scope) ∧
    ∀ i j : Interval, i.Canonical → j.Canonical →
      ∀ r, i.inclusion j = r ↔ r.Holds i.members j.members := by
  refine ⟨inferInstanceAs (IsPartialOrder (Over scope) (· ≤ ·)),
    fun a b => ⟨?_, a.exists_equal b, ?_, ?_⟩,
    fun a => le_top a.2.proper, fun a => bottom_le a.2.proper,
    fun i j hi hj => Interval.inclusion_eq_iff hi hj⟩
  · obtain ⟨answer, hanswer⟩ := exists_le a.2.proper b.2.proper
    refine ⟨answer, hanswer, ?_⟩
    -- the order of the subtype is the answer of the test
    rw [← Over.le_iff, ← Except.ok.injEq, ← hanswer]
    rfl
  · obtain ⟨t, ht, -⟩ := exists_pointwise Interval.join a.2.proper b.2.proper
    have hwell := wellFormed_pointwise Interval.Canonical.join a.2 b.2 ht
    exact ⟨⟨t, hwell⟩, ht, Over.isLUB_of_join ht⟩
  · obtain ⟨t, ht⟩ := exists_meet a.2.proper b.2.proper
    exact ⟨⟨t, wellFormed_meet a.2 b.2 ht⟩, ht, Over.isGLB_of_meet ht, stores_meet ht⟩

/-- The row `y = 0` from zero to five. -/
def lowerRow : Box := reachable [⟨.finite 0, .finite 5⟩, ⟨.finite 0, .finite 0⟩]

/-- The row `y = 1` from three on. -/
def upperRow : Box := reachable [⟨.finite 3, .posInf⟩, ⟨.finite 1, .finite 1⟩]

/-- The two rows overlap in one component and not in the other, so nothing is common. -/
theorem lattice_of_stores_rows :
    (WellFormed (Scope.ofNames ["x", "y"]) lowerRow ∧
      WellFormed (Scope.ofNames ["x", "y"]) upperRow ∧
      stores (Scope.ofNames ["x", "y"]) lowerRow ∩ stores (Scope.ofNames ["x", "y"]) upperRow = ∅) ∧
    (⟨.finite 0, .finite 5⟩ : Interval).Canonical ∧ (⟨.finite 3, .posInf⟩ : Interval).Canonical ∧
    Interval.Inclusion.incomparable.Holds (⟨.finite 0, .finite 5⟩ : Interval).members
      (⟨.finite 3, .posInf⟩ : Interval).members := by
  have hlower : WellFormed (Scope.ofNames ["x", "y"]) lowerRow := by
    unfold WellFormed lowerRow
    decide
  have hupper : WellFormed (Scope.ofNames ["x", "y"]) upperRow := by
    unfold WellFormed upperRow
    decide
  have hmeet : meet (Scope.ofNames ["x", "y"]) lowerRow upperRow = .ok bottom := by decide
  obtain ⟨-, hpairs, -, -, hinclusion⟩ := lattice_of_stores (Scope.ofNames ["x", "y"])
  obtain ⟨-, -, -, t, ht, -, hstores⟩ := hpairs ⟨lowerRow, hlower⟩ ⟨upperRow, hupper⟩
  refine ⟨⟨hlower, hupper, ?_⟩, by decide, by decide, ?_⟩
  · rw [← hstores, ← Except.ok.inj (hmeet.symm.trans ht)]
    rfl
  · exact (hinclusion _ _ (by decide) (by decide) _).mp (by decide)

end Box

end RangeGuard
