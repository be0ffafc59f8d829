import Mathlib.Tactic.Tauto
import RangeGuard.Interval.Basic
import RangeGuard.Proofs.Interval.Ends

/-!
# Members of intervals

An interval is a pair of ends, and an integer is a member of it if it lies between them. This file
says what the lattice operations and the widening do to members.

The statements are about arbitrary pairs of ends, also about those that no operation would produce.
An interval with a member has its ends in order and on the right side of the infinities, so that a
member is all that a proof needs to know about the pair. Canonicity enters in one direction only:
`canonical_iff` says that a canonical interval without members is `empty` itself, which is what lets
later files go from sets of integers back to pairs of ends.

The order on intervals is defined on the ends. Here it is shown to be sound for members
(`mem_of_le`); the converse needs canonicity and stands with the exact operations.
-/

namespace RangeGuard

namespace Interval

variable {a b : Interval} {n : Int}

/-! ## Empty intervals -/

/-- An interval is empty if its ends are in the wrong order. -/
theorem isEmpty_iff : a.isEmpty = true ↔ a.high < a.low := by
  simp [isEmpty]

theorem isEmpty_eq_false_iff : a.isEmpty = false ↔ a.low ≤ a.high := by
  simp [isEmpty]

/-- An interval with a member has its ends in order. -/
theorem isEmpty_eq_false_of_mem (h : n ∈ a) : a.isEmpty = false :=
  isEmpty_eq_false_iff.mpr (h.1.trans h.2)

/-- An empty interval has no members, in whichever way it is written. -/
theorem not_mem_of_isEmpty (h : a.isEmpty = true) : n ∉ a := by
  intro hn
  rw [isEmpty_eq_false_of_mem hn] at h
  cases h

@[simp] theorem not_mem_empty : n ∉ empty := not_mem_of_isEmpty rfl

@[simp] theorem mem_full : n ∈ full := ⟨Bound.negInf_le _, Bound.le_posInf _⟩

@[simp] theorem mem_point {m : Int} : n ∈ point m ↔ n = m := by
  simp only [mem_iff, point, Bound.finite_le_finite]
  omega

/-- An interval is constant if it is a single value, and then it is written with that value twice.
-/
theorem constant?_eq_some_iff {m : Int} : a.constant? = some m ↔ a = point m := by
  obtain ⟨low, high⟩ := a
  cases low <;> cases high <;> simp [constant?, point]
  -- two integers remain, and the test compares them
  exact ⟨fun h => ⟨h.2, h.1 ▸ h.2⟩, fun h => ⟨h.1.trans h.2.symm, h.1⟩⟩

/-- The ends of `between` decide membership, also where they are in the wrong order. -/
@[simp] theorem mem_between {low high : Bound} :
    n ∈ between low high ↔ low ≤ .finite n ∧ .finite n ≤ high := by
  unfold between
  split
  · rename_i hlt
    simp only [not_mem_empty, false_iff]
    intro h
    exact absurd (h.1.trans h.2) (not_le_of_gt hlt)
  · rfl

/-- The ends of `between` stay as given if there is a member. -/
theorem between_eq_of_mem {low high : Bound} (h : n ∈ between low high) :
    between low high = ⟨low, high⟩ := by
  obtain ⟨hlow, hhigh⟩ := mem_between.mp h
  -- a member shows that the ends are not crossed
  rw [between, if_neg (not_lt.mpr (hlow.trans hhigh))]

/-! ## Canonical intervals -/

/-- An interval with a member is canonical. -/
theorem canonical_of_mem (h : n ∈ a) : a.Canonical := by
  refine .inr ⟨h.1.trans h.2, ?_, ?_⟩
  · intro hlow
    exact Bound.not_posInf_le_finite n (hlow ▸ h.1)
  · intro hhigh
    exact Bound.not_finite_le_negInf n (hhigh ▸ h.2)

/-- A canonical interval with its ends in order has a member: a finite end, or zero between two
infinite ones. -/
theorem exists_mem_of_canonical (hc : a.Canonical) (hne : a.isEmpty = false) : ∃ n, n ∈ a := by
  obtain rfl | ⟨hle, hlow, hhigh⟩ := hc
  · cases hne
  · obtain ⟨low, high⟩ := a
    cases low with
    | negInf =>
      cases high with
      | negInf => exact absurd rfl hhigh
      | finite m => exact ⟨m, Bound.negInf_le _, Bound.le_refl _⟩
      | posInf => exact ⟨0, Bound.negInf_le _, Bound.le_posInf _⟩
    | finite m => exact ⟨m, Bound.le_refl _, hle⟩
    | posInf => exact absurd rfl hlow

/-- A canonical interval is `empty` or has a member. -/
theorem canonical_iff : a.Canonical ↔ a = empty ∨ ∃ n, n ∈ a := by
  constructor
  · intro hc
    -- the ends are in order or the interval is the one empty form
    by_cases hne : a.isEmpty = false
    · exact .inr (exists_mem_of_canonical hc hne)
    · obtain rfl | ⟨hle, -, -⟩ := hc
      · exact .inl rfl
      · exact absurd (isEmpty_eq_false_iff.mpr hle) hne
  · rintro (rfl | ⟨n, hn⟩)
    · exact .inl rfl
    · exact canonical_of_mem hn

/-! ## Inclusion -/

/-- An included interval has no further members. -/
theorem mem_of_le (h : a ≤ b) (hn : n ∈ a) : n ∈ b := by
  obtain hempty | ⟨-, hlow, hhigh⟩ := h
  · exact absurd hn (not_mem_of_isEmpty hempty)
  · exact ⟨hlow.trans hn.1, hn.2.trans hhigh⟩

/-- Every interval includes itself. Inclusion is defined by cases, and an empty interval takes the
first of them. -/
theorem le_refl (a : Interval) : a ≤ a := by
  by_cases h : a.isEmpty = true
  · exact .inl h
  · exact .inr ⟨by simpa using h, Bound.le_refl _, Bound.le_refl _⟩

/-- Two nonempty intervals that include each other have the same ends. -/
theorem eq_of_le_of_le (ha : a.isEmpty = false) (hb : b.isEmpty = false) (hab : a ≤ b)
    (hba : b ≤ a) : a = b := by
  obtain hempty | ⟨-, hlow, hhigh⟩ := hab
  · rw [ha] at hempty
    cases hempty
  obtain hempty | ⟨-, hlow', hhigh'⟩ := hba
  · rw [hb] at hempty
    cases hempty
  obtain ⟨al, ah⟩ := a
  obtain ⟨bl, bh⟩ := b
  congr
  · exact Bound.le_antisymm hlow' hlow
  · exact Bound.le_antisymm hhigh hhigh'

/-! ## Join, meet and widening -/

/-- A join loses no member of its left argument. -/
theorem mem_join_left (h : n ∈ a) : n ∈ a.join b := by
  -- the interval with the member is not the one that a join ignores
  rw [join, isEmpty_eq_false_of_mem h, if_neg Bool.false_ne_true]
  split
  · exact h
  · exact ⟨(min_le_left _ _).trans h.1, h.2.trans (le_max_left _ _)⟩

/-- A join loses no member of its right argument. -/
theorem mem_join_right (h : n ∈ b) : n ∈ a.join b := by
  rw [join, isEmpty_eq_false_of_mem h, if_neg Bool.false_ne_true]
  split
  · exact h
  · exact ⟨(min_le_right _ _).trans h.1, h.2.trans (le_max_right _ _)⟩

/-- The members of a common part are the common members. -/
theorem mem_meet : n ∈ a.meet b ↔ n ∈ a ∧ n ∈ b := by
  rw [meet, mem_between, max_le_iff, le_min_iff, mem_iff, mem_iff]
  tauto

/-- A widening loses no member of what was known before. -/
theorem mem_widen_left (h : n ∈ a) : n ∈ a.widen b := by
  rw [widen, isEmpty_eq_false_of_mem h, if_neg Bool.false_ne_true]
  split
  · exact h
  · -- each end stays or jumps outward
    constructor <;> dsimp only
    · split
      · exact Bound.negInf_le _
      · exact h.1
    · split
      · exact Bound.le_posInf _
      · exact h.2

/-- A widening loses no member of what has just arrived. -/
theorem mem_widen_right (h : n ∈ b) : n ∈ a.widen b := by
  rw [widen, isEmpty_eq_false_of_mem h, if_neg Bool.false_ne_true]
  split
  · exact h
  · -- an end that `b` does not pass already encloses the members of `b`
    constructor <;> dsimp only
    · split
      · exact Bound.negInf_le _
      · rename_i hlow
        exact (not_lt.mp hlow).trans h.1
    · split
      · exact Bound.le_posInf _
      · rename_i hhigh
        exact h.2.trans (not_lt.mp hhigh)

end Interval

end RangeGuard
