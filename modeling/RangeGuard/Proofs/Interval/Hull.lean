import RangeGuard.Proofs.Interval.Exact

/-!
# Interval arithmetic gives the smallest intervals

Every operation on intervals gives an interval around the results of the operation on members. Apart
from the remainder, it is the smallest such interval, and empty if there are no results.

## Two ways to be smallest

*Layer A: no gaps.* Sums, differences and inverses are exact: all members of the result are results
on members, so that no smaller interval can be around them.

*Layer B: approached corners.* Products and quotients do leave gaps, and there the ends of the
result decide. Each of them is a corner, and results come as near to a corner as they can: they
attain one that is an integer, and they pass every integer on the way to an infinite one
(`Bound.ApproachedBy`). An interval around all results then reaches every corner.

The conventions on infinite ends are the ones that make layer B true. A product of zero and an
infinity is zero because zero times any member is, and a quotient by an infinity is zero because a
divisor that is large enough gives it.

The remainder is left out of this on purpose. Its interval is sound and monotone but not smallest,
and `arithmetic_best` says just that about it.
-/

namespace RangeGuard

/-! ## §1 Smallest intervals -/

namespace Interval

variable {S : Int → Prop} {i j : Interval} {n : Int}

/-- The interval is the smallest one around the integers with a property. -/
def IsHull (S : Int → Prop) (i : Interval) : Prop :=
  (∀ n, S n → n ∈ i) ∧ ∀ j : Interval, (∀ n, S n → n ∈ j) → i ≤ j

/-- An interval around integers is the smallest one if none of its members lies beyond all of them.
-/
theorem isHull_of_between (hc : i.Canonical) (hS : ∀ n, S n → n ∈ i)
    (h : ∀ n ∈ i, ∃ m m', S m ∧ S m' ∧ m ≤ n ∧ n ≤ m') : i.IsHull S := by
  refine ⟨hS, fun j hj => le_of_forall_mem hc fun n hn => ?_⟩
  -- a member lies between two integers that the other interval is around
  obtain ⟨m, m', hm, hm', hle, hle'⟩ := h n hn
  exact ⟨(hj m hm).1.trans (Bound.finite_le_finite.mpr hle),
    (Bound.finite_le_finite.mpr hle').trans (hj m' hm').2⟩

/-- Around at least one integer there is only one smallest interval. -/
theorem IsHull.unique (hi : i.IsHull S) (hj : j.IsHull S) (hn : S n) : i = j :=
  eq_of_le_of_le (isEmpty_eq_false_of_mem (hi.1 n hn)) (isEmpty_eq_false_of_mem (hj.1 n hn))
    (hi.2 j hj.1) (hj.2 i hi.1)

/-- The best that an interval can say about the integers with a property: it is around all of them,
inside every other interval that is, and written in its one canonical form, so that it is `empty` if
there are no such integers. -/
structure Best (S : Int → Prop) (i : Interval) : Prop where
  canonical : i.Canonical
  isHull : i.IsHull S
  eq_empty : (∀ n, ¬ S n) → i = empty

private theorem Best.of_isHull (hc : i.Canonical) (h : i.IsHull S) : i.Best S where
  canonical := hc
  isHull := h
  eq_empty hnone := by
    -- nothing has to be around no integers, so the interval lies in the empty one
    have hempty : i.isEmpty = true := isEmpty_of_le (h.2 empty fun n hn => absurd hn (hnone n)) rfl
    obtain rfl | ⟨n, hn⟩ := canonical_iff.mp hc
    · rfl
    · exact absurd hn (not_mem_of_isEmpty hempty)

/-- An interval that has exactly the integers with a property says the best about them. -/
theorem Best.of_forall_mem_iff (hc : i.Canonical) (h : ∀ n, n ∈ i ↔ S n) : i.Best S := by
  apply Best.of_isHull hc
  apply isHull_of_between hc
  · intro n hn
    exact (h n).mpr hn
  · intro n hn
    exact ⟨n, n, (h n).mp hn, (h n).mp hn, le_rfl, le_rfl⟩

end Interval

/-! ## §2 Ends that integers approach -/

namespace Bound

variable {S T : Int → Prop} {p q : Bound} {j : Interval}

/-- Integers with a property come as near to the end as they can: an integer has the property
itself, and on the way to an infinity there is one with the property behind every integer. -/
def ApproachedBy (S : Int → Prop) : Bound → Prop
  | finite n => S n
  | negInf => ∀ m, ∃ n, n < m ∧ S n
  | posInf => ∀ m, ∃ n, m < n ∧ S n

namespace ApproachedBy

/-- More integers approach at least the same ends. -/
theorem imp (h : p.ApproachedBy S) (hST : ∀ n, S n → T n) : p.ApproachedBy T := by
  cases p with
  | finite n => exact hST n h
  | negInf => exact fun m => (h m).imp fun n hn => ⟨hn.1, hST n hn.2⟩
  | posInf => exact fun m => (h m).imp fun n hn => ⟨hn.1, hST n hn.2⟩

/-- Inverses approach the inverse of an end. -/
theorem neg (h : p.ApproachedBy S) : (-p).ApproachedBy fun n => S (-n) := by
  cases p with
  | finite n => simpa [ApproachedBy] using h
  | negInf =>
    intro m
    obtain ⟨n, hlt, hn⟩ := h (-m)
    exact ⟨-n, by omega, by simpa using hn⟩
  | posInf =>
    intro m
    obtain ⟨n, hlt, hn⟩ := h (-m)
    exact ⟨-n, by omega, by simpa using hn⟩

/-- An interval around integers reaches every end that they approach. -/
theorem mem_Icc (h : p.ApproachedBy S) (hj : ∀ n, S n → n ∈ j) : p ∈ Set.Icc j.low j.high := by
  cases p with
  | finite n => exact hj n h
  | negInf =>
    obtain ⟨n, -, hn⟩ := h 0
    refine ⟨?_, negInf_le _⟩
    -- a lower end at an integer would be passed
    cases hlow : j.low with
    | negInf => exact negInf_le _
    | finite m =>
      obtain ⟨n, hlt, hn⟩ := h m
      have hle := (hj n hn).1
      rw [hlow, finite_le_finite] at hle
      omega
    | posInf => exact absurd (hlow ▸ (hj n hn).1) (not_posInf_le_finite n)
  | posInf =>
    obtain ⟨n, -, hn⟩ := h 0
    refine ⟨le_posInf _, ?_⟩
    -- neither would an upper end at an integer be respected
    cases hhigh : j.high with
    | posInf => exact le_posInf _
    | finite m =>
      obtain ⟨n, hlt, hn⟩ := h m
      have hle := (hj n hn).2
      rw [hhigh, finite_le_finite] at hle
      omega
    | negInf => exact absurd (hhigh ▸ (hj n hn).2) (not_finite_le_negInf n)

/-- Integers that approach an end which is not negative are not all negative. -/
theorem exists_nonneg (h : p.ApproachedBy S) (hp : 0 ≤ p.sign) : ∃ n, 0 ≤ n ∧ S n := by
  cases p with
  | finite n => exact ⟨n, Int.sign_nonneg_iff.mp hp, h⟩
  | negInf => simp [sign] at hp
  | posInf =>
    obtain ⟨n, hlt, hn⟩ := h 0
    exact ⟨n, hlt.le, hn⟩

/-! ### Products -/

/-- Products approach the product of an end that is not negative with `+∞`. -/
private theorem mul_posInf (hp : p.ApproachedBy S) (hq : posInf.ApproachedBy T) (hps : 0 ≤ p.sign) :
    (p * posInf).ApproachedBy fun n => ∃ x y, S x ∧ T y ∧ x * y = n := by
  -- products with one positive factor already pass every integer
  have hunbounded : ∀ x, S x → 0 < x → posInf.ApproachedBy fun n => ∃ x y, S x ∧ T y ∧
      x * y = n := by
    intro x hx hpos m
    obtain ⟨y, hlt, hy⟩ := hq (max m 0)
    have hle : y ≤ x * y := le_mul_of_one_le_left (by omega) hpos
    exact ⟨x * y, by omega, x, y, hx, hy, rfl⟩
  cases p with
  | negInf => simp [sign] at hps
  | finite x =>
    rw [finite_mul_posInf]
    rcases (Int.sign_nonneg_iff.mp hps).eq_or_lt with rfl | hpos
    · -- zero times any member is zero
      obtain ⟨y, -, hy⟩ := hq 0
      exact ⟨0, y, hp, hy, Int.zero_mul y⟩
    · rw [Int.sign_eq_one_of_pos hpos]
      exact hunbounded x hp hpos
  | posInf =>
    obtain ⟨x, hpos, hx⟩ := hp 0
    exact hunbounded x hx hpos

/-- Products approach the product of the ends that their factors approach. -/
theorem mul (hp : p.ApproachedBy S) (hq : q.ApproachedBy T) :
    (p * q).ApproachedBy fun n => ∃ x y, S x ∧ T y ∧ x * y = n := by
  -- the sign of a negative end goes over to the product
  wlog hps : 0 ≤ p.sign generalizing p S
  · have h := (this hp.neg (by rw [sign_neg]; omega)).neg
    rw [neg_mul, neg_neg] at h
    refine h.imp ?_
    rintro n ⟨x, y, hx, hy, hn⟩
    exact ⟨-x, y, hx, hy, by rw [Int.neg_mul, hn, Int.neg_neg]⟩
  wlog hqs : 0 ≤ q.sign generalizing q T
  · have h := (this hq.neg (by rw [sign_neg]; omega)).neg
    rw [mul_comm, neg_mul, neg_neg, mul_comm] at h
    refine h.imp ?_
    rintro n ⟨x, y, hx, hy, hn⟩
    exact ⟨x, -y, hx, hy, by rw [Int.mul_neg, hn, Int.neg_neg]⟩
  cases q with
  | negInf => simp [sign] at hqs
  | posInf => exact mul_posInf hp hq hps
  | finite y =>
    cases p with
    | negInf => simp [sign] at hps
    | finite x => exact ⟨x, y, hp, hq, rfl⟩
    | posInf =>
      rw [mul_comm]
      refine (mul_posInf hq hp hqs).imp ?_
      rintro n ⟨y, x, hy, hx, hn⟩
      exact ⟨x, y, hx, hy, by rw [Int.mul_comm, hn]⟩

/-! ### Quotients -/

/-- Quotients approach the quotient of an end that is not negative by one that is positive. -/
private theorem tdiv_of_nonneg (hp : p.ApproachedBy S) (hq : q.ApproachedBy T) (hps : 0 ≤ p.sign)
    (hqs : 0 < q.sign) : (p.tdiv q).ApproachedBy fun n => ∃ x y, S x ∧ T y ∧ x.tdiv y = n := by
  cases q with
  | negInf => simp [sign] at hqs
  | posInf =>
    -- a divisor above the dividend gives zero
    rw [tdiv_posInf]
    obtain ⟨x, hnonneg, hx⟩ := hp.exists_nonneg hps
    obtain ⟨y, hlt, hy⟩ := hq x
    exact ⟨x, y, hx, hy, Int.tdiv_eq_zero_of_lt hnonneg hlt⟩
  | finite y =>
    have hy : 0 < y := Int.sign_pos_iff.mp hqs
    cases p with
    | negInf => simp [sign] at hps
    | finite x => exact ⟨x, y, hp, hq, rfl⟩
    | posInf =>
      have hquotient : posInf.tdiv (finite y) = posInf := by
        simp [Bound.tdiv, sign, Int.sign_eq_one_of_pos hy, infinity]
      rw [hquotient]
      intro m
      -- a dividend above `(m + 1) * y` has a quotient above `m`
      obtain ⟨x, hlt, hx⟩ := hp ((m + 1) * y)
      exact ⟨x.tdiv y, Int.le_tdiv_of_mul_le hy hlt.le, x, y, hx, hq, rfl⟩

/-- Quotients approach the quotient of the ends that dividend and divisor approach. -/
theorem tdiv (hp : p.ApproachedBy S) (hq : q.ApproachedBy T) (hqs : q.sign ≠ 0) :
    (p.tdiv q).ApproachedBy fun n => ∃ x y, S x ∧ T y ∧ x.tdiv y = n := by
  -- as for products, signs are moved to the quotient first
  wlog hps : 0 ≤ p.sign generalizing p S
  · have h := (this hp.neg (by rw [sign_neg]; omega)).neg
    rw [neg_tdiv, neg_neg] at h
    refine h.imp ?_
    rintro n ⟨x, y, hx, hy, hn⟩
    exact ⟨-x, y, hx, hy, by rw [Int.neg_tdiv, hn, Int.neg_neg]⟩
  wlog hpos : 0 < q.sign generalizing q T
  · have h := (this hq.neg (by rw [sign_neg]; omega) (by rw [sign_neg]; omega)).neg
    rw [tdiv_neg, neg_neg] at h
    refine h.imp ?_
    rintro n ⟨x, y, hx, hy, hn⟩
    exact ⟨x, -y, hx, hy, by rw [Int.tdiv_neg, hn, Int.neg_neg]⟩
  exact tdiv_of_nonneg hp hq hps hpos

end ApproachedBy

end Bound

/-! ## §3 Arithmetic -/

namespace Interval

variable {S : Int → Prop} {a b j part : Interval} {n : Int}

/-- The members of an interval approach its ends. -/
theorem Canonical.approached (hc : a.Canonical) (hne : a.isEmpty = false) :
    a.low.ApproachedBy (· ∈ a) ∧ a.high.ApproachedBy (· ∈ a) := by
  have hends := isEmpty_eq_false_iff.mp hne
  obtain ⟨hlow, hhigh⟩ := hc.ends hne
  constructor
  · -- a finite end of a nonempty interval is a member; an infinite one has members beyond every
    -- integer
    cases h : a.low with
    | posInf => exact absurd h hlow
    | finite n => exact ⟨h.le, h ▸ hends⟩
    | negInf =>
      intro m
      obtain ⟨n, hn, hlt⟩ :=
        exists_mem_lt (p := .finite m) hc hne (h ▸ Bound.not_finite_le_negInf m)
      exact ⟨n, Bound.finite_lt_finite.mp hlt, hn⟩
  · cases h : a.high with
    | negInf => exact absurd h hhigh
    | finite n => exact ⟨h ▸ hends, h.ge⟩
    | posInf =>
      intro m
      obtain ⟨n, hn, hlt⟩ :=
        exists_mem_gt (p := .finite m) hc hne (h ▸ Bound.not_posInf_le_finite m)
      exact ⟨n, Bound.finite_lt_finite.mp hlt, hn⟩

/-- The hull of the corners lies in every interval around integers that approach all corners. -/
theorem hull_corners_le {f : Bound → Bound → Bound} (ha : a.Canonical) (hb : b.Canonical)
    (hane : a.isEmpty = false) (hbne : b.isEmpty = false)
    (hf : ∀ p q, p.ApproachedBy (· ∈ a) → q.ApproachedBy (· ∈ b) → (f p q).ApproachedBy S)
    (hj : ∀ n, S n → n ∈ j) :
    hull (f a.low b.low) (f a.low b.high) (f a.high b.low) (f a.high b.high) ≤ j := by
  obtain ⟨halow, hahigh⟩ := ha.approached hane
  obtain ⟨hblow, hbhigh⟩ := hb.approached hbne
  -- every corner is approached by results, which all lie in `j`
  have hll := (hf _ _ halow hblow).mem_Icc hj
  have hlh := (hf _ _ halow hbhigh).mem_Icc hj
  have hhl := (hf _ _ hahigh hblow).mem_Icc hj
  have hhh := (hf _ _ hahigh hbhigh).mem_Icc hj
  refine (between_le_between ?_ ?_).trans between_ends_le
  · exact le_min (le_min (le_min hll.1 hlh.1) hhl.1) hhh.1
  · exact max_le (max_le (max_le hll.2 hlh.2) hhl.2) hhh.2

private theorem best_add (ha : a.Canonical) (hb : b.Canonical) :
    (a + b).Best fun n => ∃ x ∈ a, ∃ y ∈ b, x + y = n := by
  apply Best.of_forall_mem_iff (ha.add hb)
  intro n
  constructor
  · exact exists_of_mem_add ha hb
  · rintro ⟨x, hx, y, hy, rfl⟩
    exact mem_add hx hy

private theorem best_sub (ha : a.Canonical) (hb : b.Canonical) :
    (a - b).Best fun n => ∃ x ∈ a, ∃ y ∈ b, x - y = n := by
  apply Best.of_forall_mem_iff (ha.sub hb)
  intro n
  constructor
  · exact exists_of_mem_sub ha hb
  · rintro ⟨x, hx, y, hy, rfl⟩
    exact mem_sub hx hy

private theorem best_neg (ha : a.Canonical) : (-a).Best fun n => ∃ x ∈ a, -x = n := by
  apply Best.of_forall_mem_iff ha.neg
  intro n
  constructor
  · intro hn
    exact ⟨-n, neg_mem_of_mem_neg hn, Int.neg_neg n⟩
  · rintro ⟨x, hx, rfl⟩
    exact mem_neg hx

/-- Products approach all four corners, so the hull of the corners is the smallest interval around
them. -/
private theorem best_mul (ha : a.Canonical) (hb : b.Canonical) :
    (a * b).Best fun n => ∃ x ∈ a, ∃ y ∈ b, x * y = n := by
  apply Best.of_isHull (ha.mul hb)
  constructor
  · rintro n ⟨x, hx, y, hy, rfl⟩
    exact mem_mul hx hy
  · intro j hj
    -- without members on one side there are no results
    by_cases hempty : (a.isEmpty || b.isEmpty) = true
    · have hproduct : a * b = empty := if_pos hempty
      rw [hproduct]
      exact empty_le
    · have hproduct : a * b =
          hull (a.low * b.low) (a.low * b.high) (a.high * b.low) (a.high * b.high) := if_neg hempty
      simp only [Bool.or_eq_true, not_or, Bool.not_eq_true] at hempty
      rw [hproduct]
      apply hull_corners_le (f := (· * ·)) ha hb hempty.1 hempty.2 _ hj
      intro p q hp hq
      refine (hp.mul hq).imp ?_
      rintro n ⟨x, y, hx, hy, hn⟩
      exact ⟨x, hx, y, hy, hn⟩

/-! ### Quotients -/

/-- The parts of a canonical divisor are canonical. -/
theorem Canonical.of_mem_nonzeroParts (hb : b.Canonical) (h : part ∈ b.nonzeroParts) :
    part.Canonical := by
  obtain ⟨-, -, rfl | rfl⟩ := Interval.of_mem_nonzeroParts h
  · exact hb.meet (canonical_between (by simp) (by simp))
  · exact hb.meet (canonical_between (by simp) (by simp))

/-- The members of a part of a divisor approach no end that is zero. -/
theorem sign_ne_zero_of_approached (h : part ∈ b.nonzeroParts) {q : Bound}
    (hq : q.ApproachedBy (· ∈ part)) : q.sign ≠ 0 := by
  obtain ⟨hlow, hhigh⟩ := hq.mem_Icc fun _ => id
  -- an end at zero would have to lie beyond `-1` or below `1`
  intro hzero
  have hnonneg : .finite 0 ≤ q := Bound.sign_nonneg_iff.mp hzero.ge
  have hnonpos : q ≤ .finite 0 := Bound.sign_nonpos_iff.mp hzero.le
  rcases side_of_mem_nonzeroParts h with hneg | hpos
  · exact absurd (hnonneg.trans (hhigh.trans hneg)) (by simp)
  · exact absurd (hpos.trans (hlow.trans hnonpos)) (by simp)

/-- The quotients by either part of the divisor approach the corners of that part. -/
private theorem best_tdiv (ha : a.Canonical) (hb : b.Canonical) :
    (a.tdiv b).Best fun n => ∃ x ∈ a, ∃ y ∈ b, y ≠ 0 ∧ x.tdiv y = n := by
  apply Best.of_isHull (ha.tdiv hb)
  constructor
  · rintro n ⟨x, hx, y, hy, hne, rfl⟩
    exact mem_tdiv hx hy hne
  · intro j hj
    unfold tdiv
    split
    · exact empty_le
    · rename_i hane
      -- the quotients by each part of the divisor lie in `j`, and so does their join
      apply foldl_join_le _ empty_le
      intro part hpart
      obtain ⟨hne, hle, -⟩ := of_mem_nonzeroParts hpart
      apply hull_corners_le (f := Bound.tdiv) ha (hb.of_mem_nonzeroParts hpart)
        (by simpa using hane)
        hne _ hj
      intro p q hp hq
      refine (hp.tdiv hq (sign_ne_zero_of_approached hpart hq)).imp ?_
      rintro n ⟨x, y, hx, hy, hn⟩
      refine ⟨x, hx, y, mem_of_le hle hy, ?_, hn⟩
      rintro rfl
      exact sign_ne_zero_of_approached (q := .finite 0) hpart hy rfl

/-! ### All operations -/

/-- Sums, differences, products, inverses and quotients of canonical intervals are canonical and the
smallest intervals around the results on members. Remainders are canonical, around the results on
members, and larger for larger arguments. A divisor that is zero has no result. -/
theorem arithmetic_best (ha : a.Canonical) (hb : b.Canonical) :
    (a + b).Best (fun n => ∃ x ∈ a, ∃ y ∈ b, x + y = n) ∧
    (a - b).Best (fun n => ∃ x ∈ a, ∃ y ∈ b, x - y = n) ∧
    (a * b).Best (fun n => ∃ x ∈ a, ∃ y ∈ b, x * y = n) ∧
    (-a).Best (fun n => ∃ x ∈ a, -x = n) ∧
    (a.tdiv b).Best (fun n => ∃ x ∈ a, ∃ y ∈ b, y ≠ 0 ∧ x.tdiv y = n) ∧
    (a.tmod b).Canonical ∧ (∀ x ∈ a, ∀ y ∈ b, y ≠ 0 → x.tmod y ∈ a.tmod b) ∧
    ∀ a' b' : Interval, a ≤ a' → b ≤ b' → a.tmod b ≤ a'.tmod b' :=
  ⟨best_add ha hb, best_sub ha hb, best_mul ha hb, best_neg ha, best_tdiv ha hb, ha.tmod hb,
    fun _ hx _ hy hne => mem_tmod hx hy hne, fun _ _ => tmod_le_tmod⟩

/-- Divisors from minus two on, of which the multiples and quotients of ten are taken. -/
def fromMinusTwo : Interval := ⟨.finite (-2), .posInf⟩

/-- Ten times such a number has no upper end, and ten by it lies between minus ten and ten: the
negative divisors give at most minus five, the positive ones give at least zero. -/
theorem arithmetic_best_ten :
    (point 10).Canonical ∧ fromMinusTwo.Canonical ∧
    Best (fun n => ∃ x ∈ point 10, ∃ y ∈ fromMinusTwo, x * y = n) ⟨.finite (-20), .posInf⟩ ∧
    Best (fun n => ∃ x ∈ point 10, ∃ y ∈ fromMinusTwo, y ≠ 0 ∧ x.tdiv y = n)
      ⟨.finite (-10), .finite 10⟩ ∧
    (∀ x ∈ point 10, ∀ y ∈ fromMinusTwo, y ≠ 0 →
      x.tmod y ∈ (⟨.finite 0, .finite 10⟩ : Interval)) := by
  have hten : (point 10).Canonical := by decide
  have hfrom : fromMinusTwo.Canonical := by decide
  obtain ⟨-, -, hmul, -, hdiv, -, hrem, -⟩ := arithmetic_best hten hfrom
  have hproduct : point 10 * fromMinusTwo = ⟨.finite (-20), .posInf⟩ := by decide
  have hquotient : (point 10).tdiv fromMinusTwo = ⟨.finite (-10), .finite 10⟩ := by decide
  have hremainder : (point 10).tmod fromMinusTwo = ⟨.finite 0, .finite 10⟩ := by decide
  rw [hproduct] at hmul
  rw [hquotient] at hdiv
  rw [hremainder] at hrem
  exact ⟨hten, hfrom, hmul, hdiv, hrem⟩

end Interval

end RangeGuard
