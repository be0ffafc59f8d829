import Mathlib.Data.List.GetD
import RangeGuard.Box.Refine
import RangeGuard.Proofs.Interval.Membership

/-!
# Boxes seen through look-ups

A box stores its intervals in a list, one for each name of the scope. Proofs about boxes do not want
to see positions in that list. This file trades them for look-ups: a list of components is read
through the interval that it gives to each variable.

In these terms a store lies in a box if the list has the right length and every variable has a value
in its interval (`Box.contains_iff`), and replacing a component changes the look-up of one variable
(`Box.lookup_set`). Variables outside the scope have the full interval, so that the statements can
quantify over all names.

The names of a scope are distinct. That is the one fact about scopes behind all of this: it makes a
position and the name at it determine each other.
-/

namespace RangeGuard

@[simp] theorem Store.set_self (σ : Store) (x : String) : σ.set x (σ x) = σ := by
  funext y
  unfold Store.set
  split
  · rename_i hyx
    rw [hyx]
  · rfl

/-! ## §1 Positions -/

namespace Scope

variable {scope : Scope} {x : String} {k : Nat}

/-- A position and the name at it determine each other. -/
theorem position?_eq_some_iff : scope.position? x = some k ↔ scope.names[k]? = some x := by
  unfold position?
  rw [List.idxOf?_eq_some_iff, List.getElem?_eq_some_iff]
  constructor
  · rintro ⟨hk, hx, -⟩
    exact ⟨hk, hx⟩
  · rintro ⟨hk, hx⟩
    refine ⟨hk, hx, ?_⟩
    intro j hj hjx
    -- names are distinct, so there is no earlier place with the same name
    have heq := (List.getElem_inj scope.nodup).mp (hjx.trans hx.symm)
    omega

theorem position?_eq_none_iff : scope.position? x = none ↔ x ∉ scope.names :=
  List.idxOf?_eq_none_iff

/-- Every name of a scope has a position. -/
theorem exists_position (h : x ∈ scope.names) : ∃ k, scope.position? x = some k := by
  cases hk : scope.position? x with
  | none => exact absurd h (position?_eq_none_iff.mp hk)
  | some k => exact ⟨k, rfl⟩

theorem position_lt (h : scope.position? x = some k) : k < scope.size :=
  (List.getElem?_eq_some_iff.mp (position?_eq_some_iff.mp h)).1

/-- Every position of a scope has a name. -/
theorem exists_name (scope : Scope) (h : k < scope.size) : ∃ x, scope.position? x = some k :=
  ⟨scope.names[k], position?_eq_some_iff.mpr (List.getElem?_eq_getElem h)⟩

end Scope

/-! ## §2 Look-ups -/

namespace Box

variable {scope : Scope} {cs ds : List Interval} {σ : Store} {x y : String} {k : Nat}

theorem lookup_of_position (h : scope.position? x = some k) :
    lookup scope cs x = cs.getD k .full := by
  rw [lookup, h]

/-- Nothing is known about variables outside the scope. -/
theorem lookup_of_not_mem (h : x ∉ scope.names) : lookup scope cs x = .full := by
  rw [lookup, Scope.position?_eq_none_iff.mpr h]

/-- What holds of every component and of the full interval holds of every look-up. -/
theorem lookup_of_forall {P : Interval → Prop} (hfull : P .full) (h : ∀ i ∈ cs, P i) (x : String) :
    P (lookup scope cs x) := by
  unfold lookup
  split
  · rename_i k _
    rw [List.getD_eq_getElem?_getD]
    cases hget : cs[k]? with
    | none => exact hfull
    | some i => exact h i (List.mem_of_getElem? hget)
  · exact hfull

/-- Every component is the look-up of some variable of the scope. -/
theorem exists_lookup_eq (hlen : cs.length = scope.size) {i : Interval} (h : i ∈ cs) :
    ∃ x ∈ scope.names, lookup scope cs x = i := by
  obtain ⟨k, hk, rfl⟩ := List.getElem_of_mem h
  have hlt : k < scope.names.length := by
    rw [hlen] at hk
    exact hk
  -- the name at the same place
  refine ⟨scope.names[k], List.getElem_mem hlt, ?_⟩
  rw [lookup_of_position (Scope.position?_eq_some_iff.mpr (List.getElem?_eq_getElem hlt)),
    List.getD_eq_getElem _ _ hk]

/-- A store lies in a box of the right length if every variable has a value in its interval. -/
theorem contains_iff :
    Contains scope (reachable cs) σ ↔ cs.length = scope.size ∧ ∀ x, σ x ∈ lookup scope cs x := by
  refine and_congr_right fun hlen => ?_
  constructor
  · intro h x
    by_cases hx : x ∈ scope.names
    · obtain ⟨k, hk⟩ := Scope.exists_position hx
      have hlt : k < cs.length := hlen ▸ Scope.position_lt hk
      rw [lookup_of_position hk, List.getD_eq_getElem _ _ hlt]
      -- the name and its component stand at the same place of the two lists
      apply h (x, cs[k])
      refine List.mem_iff_getElem?.mpr ⟨k, ?_⟩
      rw [List.getElem?_zip_eq_some]
      exact ⟨Scope.position?_eq_some_iff.mp hk, List.getElem?_eq_getElem hlt⟩
    · rw [lookup_of_not_mem hx]
      exact Interval.mem_full
  · intro h p hp
    obtain ⟨k, hk⟩ := List.mem_iff_getElem?.mp hp
    obtain ⟨hname, hcomp⟩ := List.getElem?_zip_eq_some.mp hk
    have hlook := h p.1
    rwa [lookup_of_position (Scope.position?_eq_some_iff.mpr hname), List.getD_eq_getElem?_getD,
      hcomp] at hlook

/-- It is enough to look at the variables of the scope. -/
theorem contains_of_forall_mem (hlen : cs.length = scope.size)
    (h : ∀ x ∈ scope.names, σ x ∈ lookup scope cs x) : Contains scope (reachable cs) σ := by
  refine contains_iff.mpr ⟨hlen, fun x => ?_⟩
  by_cases hx : x ∈ scope.names
  · exact h x hx
  · rw [lookup_of_not_mem hx]
    exact Interval.mem_full

/-- The stores of a box are told apart by the variables of the scope only. -/
theorem contains_congr {b : Box} {τ : Store} (h : ∀ x ∈ scope.names, σ x = τ x)
    (hσ : Contains scope b σ) : Contains scope b τ := by
  cases b with
  | bottom => exact hσ
  | reachable cs =>
    refine ⟨hσ.1, fun p hp => ?_⟩
    rw [← h p.1 (List.of_mem_zip hp).1]
    exact hσ.2 p hp

/-! ## §3 Changing components -/

/-- Replacing a component changes the look-up of its variable and of no other. -/
theorem lookup_set (hlen : cs.length = scope.size) (hk : scope.position? x = some k)
    (i : Interval) :
    lookup scope (cs.set k i) y = if y = x then i else lookup scope cs y := by
  have hlt : k < cs.length := hlen ▸ Scope.position_lt hk
  split
  · rename_i hyx
    subst hyx
    rw [lookup_of_position hk, List.getD_eq_getElem?_getD, List.getElem?_set_self hlt]
    rfl
  · rename_i hyx
    cases hj : scope.position? y with
    | none => simp [lookup, hj]
    | some j =>
      -- another variable has another position, since the name at a position is unique
      have hjk : k ≠ j := by
        rintro rfl
        have hnames := (Scope.position?_eq_some_iff.mp hj).symm.trans
          (Scope.position?_eq_some_iff.mp hk)
        exact hyx (Option.some.inj hnames)
      rw [lookup_of_position hj, lookup_of_position hj, List.getD_eq_getElem?_getD,
        List.getD_eq_getElem?_getD, List.getElem?_set_ne hjk]

/-- Combining two lists component by component combines the look-ups. -/
theorem lookup_zipWith (f : Interval → Interval → Interval) (hcs : cs.length = scope.size)
    (hds : ds.length = scope.size) (hx : x ∈ scope.names) :
    lookup scope (List.zipWith f cs ds) x = f (lookup scope cs x) (lookup scope ds x) := by
  obtain ⟨k, hk⟩ := Scope.exists_position hx
  have hlt := Scope.position_lt hk
  have hzip : k < (List.zipWith f cs ds).length := by
    rw [List.length_zipWith]
    omega
  rw [lookup_of_position hk, lookup_of_position hk, lookup_of_position hk,
    List.getD_eq_getElem _ _ hzip, List.getD_eq_getElem _ _ (hcs ▸ hlt),
    List.getD_eq_getElem _ _ (hds ▸ hlt), List.getElem_zipWith]

theorem lookup_mem_zip (hcs : cs.length = scope.size) (hds : ds.length = scope.size)
    (hx : x ∈ scope.names) : (lookup scope cs x, lookup scope ds x) ∈ cs.zip ds := by
  obtain ⟨k, hk⟩ := Scope.exists_position hx
  have hlt := Scope.position_lt hk
  refine List.mem_iff_getElem?.mpr ⟨k, List.getElem?_zip_eq_some.mpr ?_⟩
  rw [lookup_of_position hk, lookup_of_position hk, List.getD_eq_getElem _ _ (hcs ▸ hlt),
    List.getD_eq_getElem _ _ (hds ▸ hlt)]
  exact ⟨List.getElem?_eq_getElem _, List.getElem?_eq_getElem _⟩

/-- Storing a value in a variable goes with replacing its interval by one around the value. -/
theorem contains_set {i : Interval} {n : Int} (h : Contains scope (reachable cs) σ)
    (hk : scope.position? x = some k) (hn : n ∈ i) :
    Contains scope (reachable (cs.set k i)) (σ.set x n) := by
  obtain ⟨hlen, hmem⟩ := contains_iff.mp h
  refine contains_iff.mpr ⟨by rw [List.length_set, hlen], fun y => ?_⟩
  rw [lookup_set hlen hk, Store.set]
  split
  · exact hn
  · exact hmem y

/-- Narrowing the interval of a variable keeps the stores whose value it still holds. -/
theorem contains_update {i : Interval} (h : Contains scope (reachable cs) σ) (hn : σ x ∈ i) :
    Contains scope (reachable (update scope cs x i)) σ := by
  unfold update
  cases hk : scope.position? x with
  | none => exact h
  | some k =>
    have hset := contains_set h hk hn
    rwa [Store.set_self] at hset

/-- A list with an empty component stands for no store, so that collapsing it to bottom loses none.
-/
theorem contains_ofComponents :
    Contains scope (ofComponents cs) σ ↔ Contains scope (reachable cs) σ := by
  unfold ofComponents
  split
  · rename_i hany
    -- the variable of the empty component would have no value
    obtain ⟨i, hi, hempty⟩ := List.any_eq_true.mp hany
    constructor
    · exact False.elim
    · intro h
      obtain ⟨hlen, hmem⟩ := contains_iff.mp h
      obtain ⟨x, -, hx⟩ := exists_lookup_eq hlen hi
      exact Interval.not_mem_of_isEmpty hempty (hx ▸ hmem x)
  · rfl

end Box

end RangeGuard
