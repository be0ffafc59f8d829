import RangeGuard.Proofs.Box.Widening
import RangeGuard.Proofs.Interval.Order

/-!
# The order of boxes

Inclusion of boxes is inclusion of the intervals that they give to each variable, with bottom below
everything. On proper boxes it always answers and is a partial order with top, in which the join is
the least upper bound and widening an upper bound.

Inclusion of intervals is only a preorder. That inclusion of boxes is antisymmetric comes from the
collapse: a proper box has no empty component, and on nonempty intervals inclusion both ways is
equality.

Two lists of components are compared through their look-ups. A list with an empty component
collapses to bottom, so a list needs to lie below another one only as long as none of its components
is empty. `Box.Beneath` is the relation with that escape built in, and the monotonicity of the
operations on boxes is proved for it.
-/

namespace RangeGuard

namespace Box

variable {scope : Scope} {a b c t : Box} {cs ds : List Interval} {x : String}

/-! ## §1 Components through look-ups -/

theorem isEmpty_lookup (h : ∀ i ∈ cs, i.isEmpty = false) (x : String) :
    (lookup scope cs x).isEmpty = false :=
  lookup_of_forall (P := fun i => i.isEmpty = false) rfl h x

theorem forall_isEmpty_of_lookup (hlen : cs.length = scope.size)
    (h : ∀ x, (lookup scope cs x).isEmpty = false) : ∀ i ∈ cs, i.isEmpty = false := by
  intro i hi
  obtain ⟨x, -, rfl⟩ := exists_lookup_eq hlen hi
  exact h x

/-- Lists of components that give every variable the same interval are the same. -/
theorem eq_of_lookup_eq (hcs : cs.length = scope.size) (hds : ds.length = scope.size)
    (h : ∀ x, lookup scope cs x = lookup scope ds x) : cs = ds := by
  apply List.ext_getElem (hcs.trans hds.symm)
  intro k hk hk'
  obtain ⟨x, hx⟩ := scope.exists_name (hcs ▸ hk)
  have hlook := h x
  rwa [lookup_of_position hx, lookup_of_position hx, List.getD_eq_getElem _ _ hk,
    List.getD_eq_getElem _ _ hk'] at hlook

/-- Replacing the interval of a variable of the scope changes no other look-up. -/
theorem lookup_update (hlen : cs.length = scope.size) (hx : x ∈ scope.names) (i : Interval)
    (y : String) :
    lookup scope (update scope cs x i) y = if y = x then i else lookup scope cs y := by
  obtain ⟨k, hk⟩ := Scope.exists_position hx
  rw [update, hk]
  exact lookup_set hlen hk i

/-! ## §2 Inclusion -/

/-- Inclusion of lists of components is inclusion of look-ups. -/
theorem le_reachable_iff (hcs : cs.length = scope.size) (hds : ds.length = scope.size) :
    le scope (reachable cs) (reachable ds) = .ok true ↔
      ∀ x, lookup scope cs x ≤ lookup scope ds x := by
  have hle : le scope (reachable cs) (reachable ds) =
      .ok ((cs.zip ds).all fun p => decide (p.1 ≤ p.2)) := by
    rw [le, components?, components?, if_pos hcs, if_pos hds]
    rfl
  rw [hle, Except.ok.injEq, List.all_eq_true]
  simp only [decide_eq_true_eq]
  constructor
  · intro h x
    -- outside the scope both look-ups are full
    by_cases hx : x ∈ scope.names
    · exact h _ (lookup_mem_zip hcs hds hx)
    · rw [lookup_of_not_mem hx, lookup_of_not_mem hx]
  · -- the two components of a pair are the look-ups of the name at their place
    intro h p hp
    obtain ⟨k, hk⟩ := List.mem_iff_getElem?.mp hp
    obtain ⟨hfst, hsnd⟩ := List.getElem?_zip_eq_some.mp hk
    have hlt : k < cs.length := (List.getElem?_eq_some_iff.mp hfst).1
    obtain ⟨x, hx⟩ := scope.exists_name (hcs ▸ hlt)
    have hlook := h x
    rwa [lookup_of_position hx, lookup_of_position hx, List.getD_eq_getElem?_getD,
      List.getD_eq_getElem?_getD, hfst, hsnd] at hlook

/-- What inclusion means: the first box is bottom, or both have components that lie in each other.
-/
theorem le_cases (h : le scope a b = .ok true) : a = bottom ∨ ∃ cs ds, a = reachable cs ∧
    b = reachable ds ∧ cs.length = scope.size ∧ ds.length = scope.size ∧
      ∀ x, lookup scope cs x ≤ lookup scope ds x := by
  obtain ⟨_, ha, hrest⟩ := bind_eq_ok_iff.mp h
  obtain ⟨_, hb, hle⟩ := bind_eq_ok_iff.mp hrest
  obtain ⟨rfl, rfl⟩ | ⟨cs, rfl, hcs, rfl⟩ := components?_eq_ok_iff.mp ha
  · exact .inl rfl
  obtain ⟨rfl, rfl⟩ | ⟨ds, rfl, hds, rfl⟩ := components?_eq_ok_iff.mp hb
  · cases hle
  · exact .inr ⟨cs, ds, rfl, rfl, hcs, hds, (le_reachable_iff hcs hds).mp h⟩

/-- Bottom lies in every proper box. -/
theorem bottom_le (hb : Proper scope b) : le scope bottom b = .ok true := by
  obtain ⟨o, ho⟩ := hb.exists_components
  rw [le, ho]
  rfl

theorem eq_bottom_of_le (h : le scope a bottom = .ok true) : a = bottom := by
  obtain rfl | ⟨cs, ds, -, hb, -⟩ := le_cases h
  · rfl
  · cases hb

/-- Inclusion of proper boxes answers. -/
theorem exists_le (ha : Proper scope a) (hb : Proper scope b) :
    ∃ answer, le scope a b = .ok answer := by
  apply ha.exists_answer hb
  rintro (- | cs) (- | ds) <;> exact ⟨_, rfl⟩

/-- Inclusion is transitive. The first two boxes need not be assumed proper, because an answer shows
that they fit the scope. -/
theorem le_trans (hc : Proper scope c) (hab : le scope a b = .ok true)
    (hbc : le scope b c = .ok true) : le scope a c = .ok true := by
  obtain rfl | ⟨cs, ds, rfl, rfl, hcs, hds, hle⟩ := le_cases hab
  · exact bottom_le hc
  obtain hbot | ⟨ds', es, hds', rfl, -, hes, hle'⟩ := le_cases hbc
  · cases hbot
  · cases hds'
    exact (le_reachable_iff hcs hes).mpr fun x => (hle x).trans (hle' x)

/-- Proper boxes that lie in each other are the same. -/
theorem le_antisymm (ha : Proper scope a) (hb : Proper scope b) (hab : le scope a b = .ok true)
    (hba : le scope b a = .ok true) : a = b := by
  obtain rfl | ⟨cs, ds, rfl, rfl, hcs, hds, hle⟩ := le_cases hab
  · exact (eq_bottom_of_le hba).symm
  have hge := (le_reachable_iff hds hcs).mp hba
  congr
  -- no component is empty, so that inclusion both ways is equality
  apply eq_of_lookup_eq hcs hds
  intro x
  exact Interval.eq_of_le_of_le (isEmpty_lookup ha.2 x) (isEmpty_lookup hb.2 x) (hle x) (hge x)

theorem lookup_top (x : String) :
    lookup scope (List.replicate scope.size Interval.full) x = .full :=
  lookup_of_forall (P := (· = .full)) rfl (fun _ hi => List.eq_of_mem_replicate hi) x

/-- Top is around every proper box. -/
theorem le_top (ha : Proper scope a) : le scope a (top scope) = .ok true := by
  cases a with
  | bottom => exact bottom_le (proper_top scope)
  | reachable cs =>
    apply (le_reachable_iff ha.1 List.length_replicate).mpr
    intro x
    rw [lookup_top]
    exact Interval.le_full

/-! ## §3 Lists of components -/

/-- Both lists fit the scope, and the look-ups of the first lie in those of the second. A first list
with an empty component collapses to bottom, so nothing is asked of it. -/
structure Beneath (scope : Scope) (cs ds : List Interval) : Prop where
  left_length : cs.length = scope.size
  right_length : ds.length = scope.size
  lookup_le : (∀ x, (lookup scope cs x).isEmpty = false) →
    ∀ x, lookup scope cs x ≤ lookup scope ds x

/-- Inclusion of boxes from lists of components. -/
theorem ofComponents_le_ofComponents (h : Beneath scope cs ds) :
    le scope (ofComponents cs) (ofComponents ds) = .ok true := by
  obtain ⟨hcs, hds, hlook⟩ := h
  by_cases hne : ∀ x, (lookup scope cs x).isEmpty = false
  · have hle := hlook hne
    have hne' : ∀ x, (lookup scope ds x).isEmpty = false := fun x =>
      Interval.isEmpty_eq_false_of_le (hle x) (hne x)
    rw [ofComponents_eq_reachable (forall_isEmpty_of_lookup hcs hne),
      ofComponents_eq_reachable (forall_isEmpty_of_lookup hds hne')]
    exact (le_reachable_iff hcs hds).mpr hle
  · -- an empty look-up is an empty component, and the first list collapses
    have hany : cs.any Interval.isEmpty = true := by
      by_contra hnone
      apply hne
      apply isEmpty_lookup
      simpa using hnone
    rw [ofComponents, if_pos hany]
    exact bottom_le (proper_ofComponents hds)

/-! ## §4 Join and widening -/

/-- Two boxes combined by an operation that gives upper bounds of intervals lie in their
combination. -/
theorem le_pointwise {f : Interval → Interval → Interval} (hf : ∀ {i j}, i ≤ f i j ∧ j ≤ f i j)
    (ha : Proper scope a) (hb : Proper scope b) (ht : pointwise scope f a b = .ok t) :
    le scope a t = .ok true ∧ le scope b t = .ok true := by
  obtain ⟨rfl, rfl⟩ | ⟨rfl, rfl⟩ | ⟨cs, ds, rfl, rfl, hcs, hds, rfl⟩ := pointwise_cases ht
  · exact ⟨bottom_le hb, le_self hb⟩
  · exact ⟨le_self ha, bottom_le ha⟩
  · have hlen : (List.zipWith f cs ds).length = scope.size := by simp [hcs, hds]
    have hlook : ∀ x, lookup scope cs x ≤ lookup scope (List.zipWith f cs ds) x ∧
        lookup scope ds x ≤ lookup scope (List.zipWith f cs ds) x := by
      intro x
      by_cases hx : x ∈ scope.names
      · rw [lookup_zipWith f hcs hds hx]
        exact hf
      · rw [lookup_of_not_mem hx, lookup_of_not_mem hx, lookup_of_not_mem hx]
        exact ⟨le_rfl, le_rfl⟩
    rw [← ofComponents_eq_reachable ha.2, ← ofComponents_eq_reachable hb.2]
    exact ⟨ofComponents_le_ofComponents ⟨hcs, hlen, fun _ x => (hlook x).1⟩,
      ofComponents_le_ofComponents ⟨hds, hlen, fun _ x => (hlook x).2⟩⟩

/-- A join lies above both of its arguments. -/
theorem le_join (ha : Proper scope a) (hb : Proper scope b) (ht : join scope a b = .ok t) :
    le scope a t = .ok true ∧ le scope b t = .ok true :=
  le_pointwise ⟨Interval.le_join_left, Interval.le_join_right⟩ ha hb ht

/-- A widening lies above both of its arguments. -/
theorem le_widen (ha : Proper scope a) (hb : Proper scope b) (ht : widen scope a b = .ok t) :
    le scope a t = .ok true ∧ le scope b t = .ok true :=
  le_pointwise ⟨Interval.le_widen_left, Interval.le_widen_right⟩ ha hb ht

/-- The join is below every box above both. -/
theorem join_le (hc : Proper scope c) (ht : join scope a b = .ok t) (ha : le scope a c = .ok true)
    (hb : le scope b c = .ok true) : le scope t c = .ok true := by
  obtain ⟨rfl, rfl⟩ | ⟨rfl, rfl⟩ | ⟨cs, ds, rfl, rfl, hcs, hds, rfl⟩ := pointwise_cases ht
  · exact hb
  · exact ha
  -- neither argument is bottom, and then the upper bound is not bottom either
  obtain hbot | ⟨cs', es, hcs', rfl, -, hes, hle⟩ := le_cases ha
  · cases hbot
  cases hcs'
  have hle' := (le_reachable_iff hds hes).mp hb
  rw [← ofComponents_eq_reachable hc.2]
  refine ofComponents_le_ofComponents ⟨by simp [hcs, hds], hes, ?_⟩
  intro _ x
  by_cases hx : x ∈ scope.names
  · rw [lookup_zipWith Interval.join hcs hds hx]
    exact Interval.join_le (hle x) (hle' x)
  · rw [lookup_of_not_mem hx, lookup_of_not_mem hx]

end Box

end RangeGuard
