import RangeGuard.Proofs.Interval.Membership

/-!
# The order of intervals

Inclusion of intervals as a preorder. It is not a partial order: two empty intervals may be written
in different ways, and then each includes the other. On nonempty intervals inclusion both ways means
equality.

Join is the least upper bound, meet is monotone and below both of its arguments, and widening lies
above both of its arguments. That is what the operations on boxes lift to environments, and it is
all that the fixpoint theory uses of the lattice.

As in the theory of members, the pairs of ends are arbitrary. What is used of a nonempty interval is
only that its ends are in order. Operations that answer `empty` for empty arguments are compared
with `guard_le_guard`, which leaves the case in which nothing is empty.
-/

namespace RangeGuard

namespace Interval

variable {a a' b b' c : Interval}

/-! ## Inclusion -/

theorem le_of_isEmpty (h : a.isEmpty = true) : a ≤ b := .inl h

/-- Inclusion of a nonempty interval is decided by the ends. -/
theorem le_iff_of_nonempty (ha : a.isEmpty = false) :
    a ≤ b ↔ b.low ≤ a.low ∧ a.high ≤ b.high := by
  constructor
  · rintro (hempty | ⟨-, hends⟩)
    · rw [ha] at hempty
      cases hempty
    · exact hends
  · rintro ⟨hlow, hhigh⟩
    -- the ends of `b` enclose ends that are in order, so they are in order themselves
    refine .inr ⟨isEmpty_eq_false_iff.mpr ?_, hlow, hhigh⟩
    exact hlow.trans ((isEmpty_eq_false_iff.mp ha).trans hhigh)

/-- What includes a nonempty interval is nonempty. -/
theorem isEmpty_eq_false_of_le (h : a ≤ b) (ha : a.isEmpty = false) : b.isEmpty = false := by
  obtain ⟨hlow, hhigh⟩ := (le_iff_of_nonempty ha).mp h
  exact isEmpty_eq_false_iff.mpr (hlow.trans ((isEmpty_eq_false_iff.mp ha).trans hhigh))

/-- What lies in an empty interval is empty. -/
theorem isEmpty_of_le (h : a ≤ b) (hb : b.isEmpty = true) : a.isEmpty = true := by
  -- if it were not empty, neither would be what is around it
  by_contra ha
  rw [isEmpty_eq_false_of_le h (by simpa using ha)] at hb
  cases hb

instance : Preorder Interval where
  le_refl := le_refl
  le_trans a b c hab hbc := by
    by_cases ha : a.isEmpty = true
    · exact le_of_isEmpty ha
    · rw [Bool.not_eq_true] at ha
      have hb := isEmpty_eq_false_of_le hab ha
      rw [le_iff_of_nonempty ha] at hab ⊢
      rw [le_iff_of_nonempty hb] at hbc
      exact ⟨hbc.1.trans hab.1, hab.2.trans hbc.2⟩

theorem empty_le : empty ≤ a := le_of_isEmpty rfl

/-- The full interval is the largest. -/
theorem le_full : a ≤ full := by
  by_cases ha : a.isEmpty = true
  · exact le_of_isEmpty ha
  · exact (le_iff_of_nonempty (by simpa using ha)).mpr ⟨Bound.negInf_le _, Bound.le_posInf _⟩

/-- A nonempty interval inside a single value is that value. -/
theorem eq_point_of_le {n : Int} (ha : a.isEmpty = false) (h : a ≤ point n) : a = point n := by
  obtain ⟨hlow, hhigh⟩ := (le_iff_of_nonempty ha).mp h
  have hends := isEmpty_eq_false_iff.mp ha
  obtain ⟨low, high⟩ := a
  congr
  · exact Bound.le_antisymm (hends.trans hhigh) hlow
  · exact Bound.le_antisymm hhigh (hlow.trans hends)

/-! ## Ends -/

/-- Moving the ends outward makes an interval larger, whether or not they were in order. -/
theorem between_le_between {low high low' high' : Bound} (hlow : low' ≤ low)
    (hhigh : high ≤ high') :
    between low high ≤ between low' high' := by
  unfold between
  split
  · exact empty_le
  · rename_i hlt
    -- the outer ends are in order because they are around ends that are
    rw [if_neg (not_lt.mpr (hlow.trans ((not_lt.mp hlt).trans hhigh)))]
    apply (le_iff_of_nonempty (isEmpty_eq_false_iff.mpr (not_lt.mp hlt))).mpr
    exact ⟨hlow, hhigh⟩

/-- A nonempty interval is given by its ends. -/
theorem between_ends (ha : a.isEmpty = false) : between a.low a.high = a := by
  rw [between, if_neg (not_lt.mpr (isEmpty_eq_false_iff.mp ha))]

theorem between_ends_le : between a.low a.high ≤ a := by
  by_cases ha : a.isEmpty = true
  · rw [between, if_pos (isEmpty_iff.mp ha)]
    exact empty_le
  · rw [between_ends (by simpa using ha)]

/-- Two operations that are empty under a condition and the first of which is included in the second
otherwise. -/
theorem guard_le_guard {p p' : Bool} (hp : p' = true → p = true) (h : p = false → a ≤ a') :
    (if p then empty else a) ≤ (if p' then empty else a') := by
  cases p with
  | true => exact empty_le
  | false =>
    have hp' : p' = false := by
      by_contra hne
      exact absurd (hp (by simpa using hne)) (by decide)
    rw [hp']
    exact h rfl

/-! ## Join, meet and widening -/

/-- A join lies above its left argument. -/
theorem le_join_left : a ≤ a.join b := by
  by_cases ha : a.isEmpty = true
  · exact le_of_isEmpty ha
  · rw [Bool.not_eq_true] at ha
    rw [join, ha, if_neg Bool.false_ne_true]
    split
    · exact le_refl a
    · exact (le_iff_of_nonempty ha).mpr ⟨min_le_left _ _, le_max_left _ _⟩

theorem le_join_right : b ≤ a.join b := by
  by_cases hb : b.isEmpty = true
  · exact le_of_isEmpty hb
  · rw [Bool.not_eq_true] at hb
    unfold join
    split
    · exact le_refl b
    · rw [hb, if_neg Bool.false_ne_true]
      exact (le_iff_of_nonempty hb).mpr ⟨min_le_right _ _, le_max_right _ _⟩

/-- A join is the least upper bound: it lies in every interval that includes both arguments. -/
theorem join_le (ha : a ≤ c) (hb : b ≤ c) : a.join b ≤ c := by
  unfold join
  split
  · exact hb
  · rename_i hane
    rw [Bool.not_eq_true] at hane
    split
    · exact ha
    · rename_i hbne
      rw [Bool.not_eq_true] at hbne
      obtain ⟨halow, hahigh⟩ := (le_iff_of_nonempty hane).mp ha
      obtain ⟨hblow, hbhigh⟩ := (le_iff_of_nonempty hbne).mp hb
      -- neither argument is empty, so that the ends decide
      refine .inr ⟨isEmpty_eq_false_of_le ha hane, ?_, ?_⟩
      · exact le_min halow hblow
      · exact max_le hahigh hbhigh

/-- A common part lies in its left argument. -/
theorem meet_le_left : a.meet b ≤ a :=
  (between_le_between (le_max_left _ _) (min_le_left _ _)).trans between_ends_le

theorem meet_le_right : a.meet b ≤ b :=
  (between_le_between (le_max_right _ _) (min_le_right _ _)).trans between_ends_le

/-- Common parts of larger intervals are larger. -/
theorem meet_le_meet (ha : a ≤ a') (hb : b ≤ b') : a.meet b ≤ a'.meet b' := by
  by_cases hne : (a.meet b).isEmpty = true
  · exact le_of_isEmpty hne
  · -- a common part that is not empty lies in intervals that are not empty
    rw [Bool.not_eq_true] at hne
    have hends : max a.low b.low ≤ min a.high b.high := by
      by_contra hcross
      rw [meet, between, if_pos (not_le.mp hcross)] at hne
      cases hne
    rw [max_le_iff, le_min_iff, le_min_iff] at hends
    have hane := isEmpty_eq_false_iff.mpr hends.1.1
    have hbne := isEmpty_eq_false_iff.mpr hends.2.2
    obtain ⟨halow, hahigh⟩ := (le_iff_of_nonempty hane).mp ha
    obtain ⟨hblow, hbhigh⟩ := (le_iff_of_nonempty hbne).mp hb
    exact between_le_between (max_le_max halow hblow) (min_le_min hahigh hbhigh)

/-- A widening lies above what was known before, so that a sequence of widenings is a chain. -/
theorem le_widen_left : a ≤ a.widen b := by
  by_cases ha : a.isEmpty = true
  · exact le_of_isEmpty ha
  · rw [Bool.not_eq_true] at ha
    rw [widen, ha, if_neg Bool.false_ne_true]
    split
    · exact le_refl a
    · apply (le_iff_of_nonempty ha).mpr
      -- an end that moves goes to its infinity
      constructor <;> dsimp only
      · split
        · exact Bound.negInf_le _
        · exact Bound.le_refl _
      · split
        · exact Bound.le_posInf _
        · exact Bound.le_refl _

/-- A widening lies above what has just arrived. -/
theorem le_widen_right : b ≤ a.widen b := by
  by_cases hb : b.isEmpty = true
  · exact le_of_isEmpty hb
  · rw [Bool.not_eq_true] at hb
    unfold widen
    split
    · exact le_refl b
    · rw [hb, if_neg Bool.false_ne_true]
      apply (le_iff_of_nonempty hb).mpr
      -- an end of `a` that `b` does not pass lies outside that of `b`
      constructor <;> dsimp only
      · split
        · exact Bound.negInf_le _
        · rename_i hlow
          exact not_lt.mp hlow
      · split
        · exact Bound.le_posInf _
        · rename_i hhigh
          exact not_lt.mp hhigh

end Interval

end RangeGuard
