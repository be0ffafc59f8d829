import Mathlib.Algebra.Order.Ring.Int
import Mathlib.Data.Set.Monotone
import Mathlib.Order.Interval.Set.Basic
import RangeGuard.Bound

/-!
# Arithmetic on the ends of intervals

An end of an interval is an integer or one of the two infinities. This file makes the ends a linear
order, so that `min`, `max` and monotone maps come with their library lemmas, and then says how the
arithmetic of ends relates to that order.

## Conventions at infinity

The operations on ends are total, so something has to be said about `∞ - ∞`, `0 * ∞` and `x / ∞`. No
statement below needs the chosen values to be limits of anything. What matters is the direction:

1. a sum of lower ends lies below the sum, a sum of upper ends above it (§2);
2. a product with a fixed end is monotone or antitone in the other factor, by the sign of the fixed
   one (§3);
3. a truncated quotient is so as well, in the dividend always and in the divisor on either side of
   zero (§4);
4. a quotient rounded down, or up, solves an inequality for a factor (§5).

Everything later about intervals uses only these directions. The proofs about the infinities are
case splits over the three kinds of ends, and negative ends are reduced to positive ones by
`neg_mul` and `neg_tdiv` rather than split again.
-/

namespace RangeGuard

namespace Bound

/-! ## §1 The linear order -/

instance : LinearOrder Bound where
  le_refl := Bound.le_refl
  le_trans _ _ _ := Bound.le_trans
  lt_iff_le_not_ge a b := by
    constructor
    · intro h
      exact ⟨(Bound.le_total a b).resolve_right h, h⟩
    · intro h
      exact h.2
  le_antisymm _ _ := Bound.le_antisymm
  le_total := Bound.le_total
  toDecidableLE := decidableLe

variable {p q r : Bound} {x y : Int}

/-! ## §2 Sums and inverses of ends -/

@[simp] theorem finite_add_finite : finite x + finite y = finite (x + y) := rfl

@[simp] theorem finite_mul_finite : finite x * finite y = finite (x * y) := rfl

@[simp] theorem neg_finite : -finite x = finite (-x) := rfl

@[simp] theorem neg_negInf : -negInf = posInf := rfl

@[simp] theorem neg_posInf : -posInf = negInf := rfl

@[simp] theorem neg_neg (p : Bound) : - -p = p := by
  cases p with
  | negInf => rfl
  | finite n => exact congrArg finite (Int.neg_neg n)
  | posInf => rfl

/-- Inverses reverse the order, also between the infinities. -/
theorem neg_le_neg (h : p ≤ q) : -q ≤ -p := by
  cases p <;> cases q <;> simp_all

/-- A sum of lower ends is a lower end of the sum. -/
theorem add_le_finite (hp : p ≤ finite x) (hq : q ≤ finite y) : p + q ≤ finite (x + y) := by
  cases p with
  -- an end below an integer is not `+∞`, so that `-∞` never meets it
  | posInf => exact absurd hp (not_posInf_le_finite x)
  | negInf =>
    cases q with
    | posInf => exact absurd hq (not_posInf_le_finite y)
    | negInf => exact negInf_le _
    | finite n => exact negInf_le _
  | finite m =>
    cases q with
    | posInf => exact absurd hq (not_posInf_le_finite y)
    | negInf => exact negInf_le _
    | finite n => exact finite_le_finite.mpr (Int.add_le_add hp hq)

/-- A sum of upper ends is an upper end of the sum. -/
theorem finite_le_add (hp : finite x ≤ p) (hq : finite y ≤ q) : finite (x + y) ≤ p + q := by
  cases p with
  -- the mirror image: neither upper end is `-∞`
  | negInf => exact absurd hp (not_finite_le_negInf x)
  | posInf =>
    cases q with
    | negInf => exact absurd hq (not_finite_le_negInf y)
    | posInf => exact le_posInf _
    | finite n => exact le_posInf _
  | finite m =>
    cases q with
    | negInf => exact absurd hq (not_finite_le_negInf y)
    | posInf => exact le_posInf _
    | finite n => exact finite_le_finite.mpr (Int.add_le_add hp hq)

theorem sign_neg (p : Bound) : (-p).sign = -p.sign := by
  cases p with
  | negInf => rfl
  | finite n => exact Int.sign_neg n
  | posInf => rfl

/-- The sign decides on which side of zero an end is. -/
theorem sign_nonneg_iff : 0 ≤ p.sign ↔ finite 0 ≤ p := by
  cases p with
  | negInf => simp [sign]
  | finite n => exact Int.sign_nonneg_iff
  | posInf => simp [sign]

theorem sign_nonpos_iff : p.sign ≤ 0 ↔ p ≤ finite 0 := by
  cases p with
  | negInf => simp [sign]
  | finite n => exact Int.sign_nonpos_iff
  | posInf => simp [sign]

/-! ## §3 Products of ends -/

private theorem infinity_of_pos {s : Int} (h : 0 < s) : infinity s = posInf := by
  rw [infinity, if_neg (by omega), if_neg (by omega)]

private theorem infinity_of_neg {s : Int} (h : s < 0) : infinity s = negInf := by
  rw [infinity, if_pos h]

@[simp] theorem infinity_zero : infinity 0 = finite 0 := rfl

private theorem infinity_neg (s : Int) : infinity (-s) = -infinity s := by
  rcases lt_trichotomy s 0 with hs | rfl | hs
  · rw [infinity_of_neg hs, infinity_of_pos (by omega)]
    rfl
  · rfl
  · rw [infinity_of_pos hs, infinity_of_neg (by omega)]
    rfl

private theorem infinity_le_infinity {s t : Int} (hst : s ≤ t) : infinity s ≤ infinity t := by
  rcases lt_trichotomy s 0 with hs | rfl | hs
  · rw [infinity_of_neg hs]
    exact negInf_le _
  · -- from zero the sign can only stay or become positive
    rcases hst.lt_or_eq with ht | rfl
    · rw [infinity_of_pos ht]
      exact le_posInf _
    · exact le_refl _
  · rw [infinity_of_pos (hs.trans_le hst)]
    exact le_posInf _

/-- The order of factors does not matter, because at an infinity only the product of the signs does.
-/
theorem mul_comm (p q : Bound) : p * q = q * p := by
  cases p <;> cases q
  case finite.finite x y => exact congrArg finite (Int.mul_comm x y)
  case finite.negInf x => exact congrArg infinity (Int.mul_comm _ _)
  case finite.posInf x => exact congrArg infinity (Int.mul_comm _ _)
  case negInf.finite x => exact congrArg infinity (Int.mul_comm _ _)
  case posInf.finite x => exact congrArg infinity (Int.mul_comm _ _)
  all_goals rfl

/-- The sign of a factor goes over to the product. This reduces statements on negative ends to
positive ones. -/
theorem neg_mul (p q : Bound) : -p * q = -(p * q) := by
  cases p <;> cases q
  case finite.finite x y => exact congrArg finite (Int.neg_mul x y)
  -- at an infinity the product of the signs changes its sign, and with it the infinity
  case finite.negInf x =>
    exact (congrArg infinity (by simp [sign])).trans (infinity_neg _)
  case finite.posInf x =>
    exact (congrArg infinity (by simp [sign])).trans (infinity_neg _)
  case negInf.finite x =>
    exact (congrArg infinity (by simp [sign])).trans (infinity_neg _)
  case posInf.finite x =>
    exact (congrArg infinity (by simp [sign])).trans (infinity_neg _)
  all_goals rfl

@[simp] theorem zero_mul (q : Bound) : finite 0 * q = finite 0 := by
  cases q with
  | negInf => rfl
  | finite n => exact congrArg finite (Int.zero_mul n)
  | posInf => rfl

private theorem posInf_mul_finite (n : Int) : posInf * finite n = infinity n.sign :=
  congrArg infinity (Int.one_mul _)

/-- A product with `+∞` is an infinity or zero, by the sign of the integer. -/
theorem finite_mul_posInf (n : Int) : finite n * posInf = infinity n.sign :=
  congrArg infinity (Int.mul_one _)

private theorem finite_mul_negInf (n : Int) : finite n * negInf = infinity (-n.sign) :=
  congrArg infinity (by simp [sign])

private theorem sign_le_sign {m n : Int} (h : m ≤ n) : m.sign ≤ n.sign := by
  rcases lt_trichotomy m 0 with hm | rfl | hm
  · rw [Int.sign_eq_neg_one_of_neg hm]
    rcases lt_trichotomy n 0 with hn | rfl | hn
    · rw [Int.sign_eq_neg_one_of_neg hn]
    · decide
    · rw [Int.sign_eq_one_of_pos hn]
      decide
  · exact Int.sign_nonneg_iff.mpr h
  · rw [Int.sign_eq_one_of_pos hm, Int.sign_eq_one_of_pos (by omega)]

/-- Multiplying by an end that is not negative keeps the order. -/
theorem monotone_mul_left (hp : 0 ≤ p.sign) : Monotone (p * ·) := by
  intro q r hqr
  dsimp only
  -- `+∞` has products `-∞`, zero and `+∞`, by the sign of the other factor; an integer may be zero,
  -- and then its products with the infinities are zero as well
  cases p with
  | negInf => simp [sign] at hp
  | posInf =>
    cases q with
    | negInf => exact negInf_le _
    | posInf =>
      cases r with
      | negInf => exact absurd hqr not_posInf_le_negInf
      | finite m => exact absurd hqr (not_posInf_le_finite m)
      | posInf => exact le_refl _
    | finite k =>
      cases r with
      | negInf => exact absurd hqr (not_finite_le_negInf k)
      | finite m =>
        rw [posInf_mul_finite, posInf_mul_finite]
        exact infinity_le_infinity (sign_le_sign hqr)
      | posInf => exact le_posInf _
  | finite n =>
    rcases (Int.sign_nonneg_iff.mp hp).eq_or_lt with rfl | hn
    · rw [zero_mul, zero_mul]
    · cases q with
      | negInf =>
        rw [finite_mul_negInf, Int.sign_eq_one_of_pos hn]
        exact negInf_le _
      | posInf =>
        cases r with
        | negInf => exact absurd hqr not_posInf_le_negInf
        | finite m => exact absurd hqr (not_posInf_le_finite m)
        | posInf => exact le_refl _
      | finite k =>
        cases r with
        | negInf => exact absurd hqr (not_finite_le_negInf k)
        | finite m => exact finite_le_finite.mpr (Int.mul_le_mul_of_nonneg_left hqr hn.le)
        | posInf =>
          rw [finite_mul_posInf, Int.sign_eq_one_of_pos hn]
          exact le_posInf _

/-- Multiplying by an end that is not positive reverses the order. -/
theorem antitone_mul_left (hp : p.sign ≤ 0) : Antitone (p * ·) := by
  intro q r hqr
  have hneg : 0 ≤ (-p).sign := by
    rw [sign_neg]
    omega
  -- multiply by the inverse, which is not negative, and turn the result around
  have h := neg_le_neg (monotone_mul_left hneg hqr)
  simpa only [neg_mul, neg_neg] using h

/-- A product depends on its right factor in one direction. -/
theorem mul_left_directed (p : Bound) : Monotone (p * ·) ∨ Antitone (p * ·) := by
  rcases Int.le_total 0 p.sign with hp | hp
  · exact .inl (monotone_mul_left hp)
  · exact .inr (antitone_mul_left hp)

/-- A product depends on its left factor in one direction. -/
theorem mul_right_directed (p : Bound) : Monotone (· * p) ∨ Antitone (· * p) := by
  simpa only [mul_comm] using mul_left_directed p

/-! ## §4 Quotients of ends -/

/-- Dividing by a fixed positive integer keeps the order. -/
theorem monotone_tdiv_right {k : Int} (hk : 0 < k) : Monotone (tdiv · (finite k)) := by
  intro q r hqr
  -- a positive divisor leaves the infinities where they are
  have hneg : negInf.tdiv (finite k) = negInf := by
    simp [tdiv, sign, Int.sign_eq_one_of_pos hk, infinity]
  have hpos : posInf.tdiv (finite k) = posInf := by
    simp [tdiv, sign, Int.sign_eq_one_of_pos hk, infinity]
  cases q with
  | negInf =>
    dsimp only
    rw [hneg]
    exact negInf_le _
  | posInf =>
    obtain rfl : r = posInf := le_antisymm (le_posInf _) hqr
    exact le_refl _
  | finite m =>
    cases r with
    | negInf => exact absurd hqr (not_finite_le_negInf m)
    | finite n => exact finite_le_finite.mpr (Int.tdiv_le_tdiv hk hqr)
    | posInf =>
      dsimp only
      rw [hpos]
      exact le_posInf _

/-- The sign of a divisor goes over to the quotient. -/
theorem tdiv_neg (p q : Bound) : p.tdiv (-q) = -(p.tdiv q) := by
  cases p <;> cases q
  case finite.finite m n => exact congrArg finite (Int.tdiv_neg m n)
  case negInf.finite n => exact (congrArg infinity (by simp [sign])).trans (infinity_neg _)
  case posInf.finite n => exact (congrArg infinity (by simp [sign])).trans (infinity_neg _)
  all_goals rfl

/-- The sign of a dividend goes over to the quotient. -/
theorem neg_tdiv (p q : Bound) : (-p).tdiv q = -(p.tdiv q) := by
  cases p <;> cases q
  case finite.finite m n => exact congrArg finite (Int.neg_tdiv m n)
  case negInf.finite n => exact (congrArg infinity (by simp [sign])).trans (infinity_neg _)
  case posInf.finite n => exact (congrArg infinity (by simp [sign])).trans (infinity_neg _)
  all_goals rfl

private theorem tdiv_negInf (p : Bound) : p.tdiv negInf = finite 0 := by
  cases p <;> rfl

/-- Every quotient by an infinity is zero. -/
theorem tdiv_posInf (p : Bound) : p.tdiv posInf = finite 0 := by
  cases p <;> rfl

/-- A quotient by an end other than zero depends on its dividend in one direction. -/
theorem tdiv_right_directed (hq : q ≤ finite (-1) ∨ finite 1 ≤ q) :
    Monotone (tdiv · q) ∨ Antitone (tdiv · q) := by
  cases q with
  | negInf =>
    simp only [tdiv_negInf]
    exact .inl monotone_const
  | posInf =>
    simp only [tdiv_posInf]
    exact .inl monotone_const
  | finite k =>
    rcases hq with hneg | hpos
    · -- a negative divisor reverses the order of the dividends
      right
      have hk : 0 < -k := by
        have := finite_le_finite.mp hneg
        omega
      intro r s hrs
      have h := neg_le_neg (monotone_tdiv_right hk hrs)
      simpa only [← neg_finite, tdiv_neg, neg_neg] using h
    · exact .inl (monotone_tdiv_right (finite_le_finite.mp hpos))

private theorem int_tdiv_antitone {n k m : Int} (hn : 0 ≤ n) (hk : 0 < k) (hkm : k ≤ m) :
    n.tdiv m ≤ n.tdiv k := by
  have hq : 0 ≤ n.tdiv m := Int.tdiv_nonneg hn (by omega)
  -- a lower bound for the larger quotient: the smaller one times the smaller divisor
  apply Int.le_tdiv_of_mul_le hk
  calc n.tdiv m * k ≤ n.tdiv m * m := Int.mul_le_mul_of_nonneg_left hkm hq
    _ ≤ n := by
      rw [Int.tdiv_eq_ediv_of_nonneg hn]
      exact Int.ediv_mul_le n (by omega)

/-- Dividing an end that is not negative by larger positive ends makes the quotient smaller. -/
theorem antitoneOn_tdiv_left (hp : 0 ≤ p.sign) : AntitoneOn p.tdiv (Set.Ici (finite 1)) := by
  intro q hq r hr hqr
  -- a quotient by `+∞` is zero, which no quotient of such an end falls below
  have hnonneg : ∀ {k : Int}, 1 ≤ k → finite 0 ≤ p.tdiv (finite k) := by
    intro k hk
    cases p with
    | negInf => simp [sign] at hp
    | finite n =>
      exact finite_le_finite.mpr (Int.tdiv_nonneg (Int.sign_nonneg_iff.mp hp) (by omega))
    | posInf =>
      have h : posInf.tdiv (finite k) = posInf := by
        simp [tdiv, sign, Int.sign_eq_one_of_pos (show 0 < k by omega), infinity]
      rw [h]
      exact le_posInf _
  cases q with
  | negInf => exact absurd hq (not_finite_le_negInf 1)
  | posInf =>
    obtain rfl : r = posInf := le_antisymm (le_posInf _) hqr
    exact le_refl _
  | finite k =>
    cases r with
    | negInf => exact absurd hr (not_finite_le_negInf 1)
    | posInf =>
      rw [tdiv_posInf]
      exact hnonneg hq
    | finite m =>
      cases p with
      | negInf => simp [sign] at hp
      | finite n =>
        exact finite_le_finite.mpr (int_tdiv_antitone (Int.sign_nonneg_iff.mp hp) hq hqr)
      | posInf =>
        have hk : 0 < k := hq
        have hm : 0 < m := hr
        simp [tdiv, sign, Int.sign_eq_one_of_pos hk, Int.sign_eq_one_of_pos hm]

/-- On the positive ends a quotient depends on its divisor in one direction. -/
theorem tdiv_left_Ici (p : Bound) :
    MonotoneOn p.tdiv (Set.Ici (finite 1)) ∨ AntitoneOn p.tdiv (Set.Ici (finite 1)) := by
  by_cases hp : 0 ≤ p.sign
  · exact .inr (antitoneOn_tdiv_left hp)
  · left
    -- a negative dividend: the quotient of its inverse, with the sign changed
    have hneg : 0 ≤ (-p).sign := by
      rw [sign_neg]
      omega
    intro q hq r hr hqr
    have h := neg_le_neg (antitoneOn_tdiv_left hneg hq hr hqr)
    simpa only [neg_tdiv, neg_neg] using h

/-- On the negative ends a quotient depends on its divisor in one direction: both the divisor and
the quotient change sign. -/
theorem tdiv_left_Iic (p : Bound) :
    MonotoneOn p.tdiv (Set.Iic (finite (-1))) ∨ AntitoneOn p.tdiv (Set.Iic (finite (-1))) := by
  have hpos : ∀ {q : Bound}, q ∈ Set.Iic (finite (-1)) → -q ∈ Set.Ici (finite 1) := neg_le_neg
  rcases tdiv_left_Ici p with h | h
  · left
    intro q hq r hr hqr
    have hle := neg_le_neg (h (hpos hr) (hpos hq) (neg_le_neg hqr))
    simpa only [tdiv_neg, neg_neg] using hle
  · right
    intro q hq r hr hqr
    have hle := neg_le_neg (h (hpos hr) (hpos hq) (neg_le_neg hqr))
    simpa only [tdiv_neg, neg_neg] using hle

/-- Between ends of one sign a quotient depends on its divisor in one direction. -/
theorem tdiv_left_directed {low high : Bound} (hside : high ≤ finite (-1) ∨ finite 1 ≤ low)
    (p : Bound) : MonotoneOn p.tdiv (Set.Icc low high) ∨ AntitoneOn p.tdiv (Set.Icc low high) := by
  rcases hside with hneg | hpos
  · have hsub : Set.Icc low high ⊆ Set.Iic (finite (-1)) := fun _ h => h.2.trans hneg
    exact (tdiv_left_Iic p).imp (·.mono hsub) (·.mono hsub)
  · have hsub : Set.Icc low high ⊆ Set.Ici (finite 1) := fun _ h => hpos.trans h.1
    exact (tdiv_left_Ici p).imp (·.mono hsub) (·.mono hsub)

/-! ## §5 Rounded quotients of ends -/

/-- Rounding up is rounding down with the sign of the divisor and of the result changed. -/
theorem ceilDiv_eq {k : Int} (hk : k ≠ 0) : p.ceilDiv k = -(p.floorDiv (-k)) := by
  cases p with
  | finite n =>
    have h : (-n).fdiv k = n.fdiv (-k) := by
      rw [← Int.neg_fdiv_neg, Int.neg_neg]
    exact congrArg (fun m => finite (-m)) h
  -- an infinity only looks at the sign of the divisor
  | negInf => rcases lt_or_gt_of_ne hk with h | h <;>
      simp [ceilDiv, floorDiv, h, not_lt_of_gt h]
  | posInf => rcases lt_or_gt_of_ne hk with h | h <;>
      simp [ceilDiv, floorDiv, h, not_lt_of_gt h]

/-- The sign of an integer divisor may be moved to the end that is divided. -/
theorem floorDiv_neg {k : Int} (hk : k ≠ 0) : p.floorDiv (-k) = (-p).floorDiv k := by
  cases p with
  | finite n =>
    have h : n.fdiv (-k) = (-n).fdiv k := by
      rw [← Int.neg_fdiv_neg, Int.neg_neg]
    exact congrArg finite h
  | negInf => rcases lt_or_gt_of_ne hk with h | h <;> simp [floorDiv, h, not_lt_of_gt h]
  | posInf => rcases lt_or_gt_of_ne hk with h | h <;> simp [floorDiv, h, not_lt_of_gt h]

/-- Solving for a factor: if the product lies below an end, the factor lies below the quotient,
rounded down. -/
theorem finite_le_floorDiv {k : Int} (hk : 0 < k) (h : finite (k * x) ≤ p) :
    finite x ≤ p.floorDiv k := by
  cases p with
  | negInf => exact absurd h (not_finite_le_negInf _)
  | finite n =>
    refine finite_le_finite.mpr ?_
    -- for a positive divisor all roundings down agree
    rw [Int.fdiv_eq_ediv_of_nonneg n hk.le]
    refine Int.le_ediv_of_mul_le hk ?_
    rw [Int.mul_comm]
    exact finite_le_finite.mp h
  | posInf =>
    rw [floorDiv, if_neg (by omega)]
    · exact le_posInf _
    · intro n hn
      cases hn

/-! ## §6 Absolute values of ends -/

/-- No end lies above its absolute value. -/
theorem le_abs_self (p : Bound) : p ≤ p.abs := by
  unfold abs
  split
  · rename_i hneg
    cases p with
    | negInf => exact negInf_le _
    | finite n =>
      have hn : n < 0 := Int.sign_neg_iff.mp hneg
      exact finite_le_finite.mpr (by omega)
    | posInf => simp [sign] at hneg
  · exact le_refl _

/-- Nor does its inverse. -/
theorem neg_le_abs (p : Bound) : -p ≤ p.abs := by
  -- an end and its inverse have the same absolute value
  have h : (-p).abs = p.abs := by
    unfold abs
    rw [sign_neg, neg_neg]
    cases p with
    | negInf => rfl
    | finite n =>
      rcases lt_trichotomy n 0 with hn | rfl | hn
      · simp [sign, Int.sign_eq_neg_one_of_neg hn]
      · rfl
      · simp [sign, Int.sign_eq_one_of_pos hn]
    | posInf => rfl
  rw [← h]
  exact le_abs_self _

end Bound

end RangeGuard
