import RangeGuard.Proofs.Interval.Canonical

/-!
# Exact operations on intervals

Enclosure has a converse for the operations that leave no gaps. Every member of a sum or a
difference is one of members, every member of a multiple by `1` or `-1` is one of a member, and
every member of a quotient solves for the factor. Inclusions are exact as well: an interval around
all members of a canonical one includes it by its ends.

Members with given properties are found in one way. Two canonical intervals of which neither lies
beyond the other have a common member (`exists_mem_both`), and for a sum `n` the two are the left
summand and what `n` leaves for it.

The first section transfers inequalities between ends across a sum. It is needed because ends do not
form a group: from `p + q ≤ n` follows `p ≤ n - q` only if the infinities are on the right side, and
canonicity is where that comes from.
-/

namespace RangeGuard

/-! ## §1 Inequalities between ends -/

namespace Bound

variable {p q : Bound} {n x : Int}

private theorem finite_sub_le_finite : finite n - p ≤ finite x ↔ finite (n - x) ≤ p := by
  cases p with
  | negInf => exact ⟨fun h => h.elim, fun h => h.elim⟩
  | finite m =>
    show n + -m ≤ x ↔ n - x ≤ m
    omega
  | posInf => exact ⟨fun _ => le_posInf _, fun _ => negInf_le _⟩

private theorem finite_le_finite_sub : finite x ≤ finite n - p ↔ p ≤ finite (n - x) := by
  cases p with
  | negInf => exact ⟨fun _ => negInf_le _, fun _ => le_posInf _⟩
  | finite m =>
    show x ≤ n + -m ↔ m ≤ n - x
    omega
  | posInf => exact ⟨fun h => h.elim, fun h => h.elim⟩

private theorem le_finite_sub_of_add_le (hp : p ≠ posInf) (h : p + q ≤ finite n) :
    p ≤ finite n - q := by
  cases p with
  | negInf => exact negInf_le _
  | posInf => exact absurd rfl hp
  | finite m =>
    cases q with
    | negInf => exact le_posInf _
    -- a sum with `+∞` does not lie below an integer
    | posInf => exact h.elim
    | finite k =>
      have hsum : m + k ≤ n := h
      show m ≤ n + -k
      omega

private theorem finite_sub_le_of_le_add (hp : p ≠ negInf) (h : finite n ≤ p + q) :
    finite n - q ≤ p := by
  cases p with
  | negInf => exact absurd rfl hp
  | posInf => exact le_posInf _
  | finite m =>
    cases q with
    | negInf => exact h.elim
    | posInf => exact negInf_le _
    | finite k =>
      have hsum : n ≤ m + k := h
      show n + -k ≤ m
      omega

private theorem finite_one_mul (p : Bound) : finite 1 * p = p := by
  cases p with
  | negInf => rfl
  | finite m => exact congrArg finite (Int.one_mul m)
  | posInf => rfl

private theorem finite_neg_one_mul (p : Bound) : finite (-1) * p = -p := by
  rw [← neg_finite, neg_mul, finite_one_mul]

/-- What a quotient rounded down reaches, its product with the divisor reaches. -/
theorem finite_mul_le_of_le_floorDiv {k : Int} (hk : 0 < k) (h : finite x ≤ p.floorDiv k) :
    finite (k * x) ≤ p := by
  cases p with
  | negInf => simp [floorDiv, not_lt_of_gt hk] at h
  | posInf => exact le_posInf _
  | finite m =>
    have hquotient : x ≤ m.fdiv k := h
    -- for a positive divisor the adjunction of Euclidean division applies
    rw [Int.fdiv_eq_ediv_of_nonneg m hk.le] at hquotient
    have hproduct : x * k ≤ m := (Int.le_ediv_iff_mul_le hk).mp hquotient
    exact finite_le_finite.mpr (Int.mul_comm k x ▸ hproduct)

private theorem le_finite_of_neg_le (h : finite (-n) ≤ -p) : p ≤ finite n := by
  have hneg := neg_le_neg h
  rwa [neg_neg, neg_finite, Int.neg_neg] at hneg

end Bound

namespace Interval

variable {a b : Interval} {n : Int}

/-! ## §2 Members near an end -/

/-- A canonical interval that starts below an end has a member below it. -/
theorem exists_mem_lt {p : Bound} (hc : a.Canonical) (hne : a.isEmpty = false) (h : a.low < p) :
    ∃ n ∈ a, Bound.finite n < p := by
  obtain ⟨m, hm⟩ := exists_mem_of_canonical hc hne
  cases p with
  | negInf => exact absurd (Bound.negInf_le _) h
  | posInf => exact ⟨m, hm, Bound.not_posInf_le_finite m⟩
  | finite k =>
    -- the smaller of a member and the integer below the end
    refine ⟨min m (k - 1), ⟨?_, ?_⟩, Bound.finite_lt_finite.mpr (by omega)⟩
    · have hbelow : a.low ≤ .finite (k - 1) := Bound.le_pred_of_ne (le_of_lt h) (ne_of_lt h)
      rcases min_choice m (k - 1) with hmin | hmin <;> rw [hmin]
      · exact hm.1
      · exact hbelow
    · exact (Bound.finite_le_finite.mpr (min_le_left _ _)).trans hm.2

/-- A canonical interval that ends above an end has a member above it. -/
theorem exists_mem_gt {p : Bound} (hc : a.Canonical) (hne : a.isEmpty = false) (h : p < a.high) :
    ∃ n ∈ a, p < Bound.finite n := by
  obtain ⟨m, hm⟩ := exists_mem_of_canonical hc hne
  cases p with
  | posInf => exact absurd (Bound.le_posInf _) h
  | negInf => exact ⟨m, hm, Bound.not_finite_le_negInf m⟩
  | finite k =>
    -- the larger of a member and the integer above the end
    refine ⟨max m (k + 1), ⟨?_, ?_⟩, Bound.finite_lt_finite.mpr (by omega)⟩
    · exact hm.1.trans (Bound.finite_le_finite.mpr (le_max_left _ _))
    · have habove : .finite (k + 1) ≤ a.high := Bound.succ_le_of_ne (le_of_lt h) (ne_of_gt h)
      rcases max_choice m (k + 1) with hmax | hmax <;> rw [hmax]
      · exact hm.2
      · exact habove

/-- A canonical interval lies in every interval that holds its members. -/
theorem le_of_forall_mem (hc : a.Canonical) (h : ∀ n ∈ a, n ∈ b) : a ≤ b := by
  by_cases hne : a.isEmpty = true
  · exact le_of_isEmpty hne
  · rw [Bool.not_eq_true] at hne
    refine (le_iff_of_nonempty hne).mpr ⟨?_, ?_⟩
    · -- an end that were passed would be passed by a member
      by_contra hlow
      obtain ⟨n, hn, hlt⟩ := exists_mem_lt hc hne (not_le.mp hlow)
      exact absurd (h n hn).1 (not_le.mpr hlt)
    · by_contra hhigh
      obtain ⟨n, hn, hgt⟩ := exists_mem_gt hc hne (not_le.mp hhigh)
      exact absurd (h n hn).2 (not_le.mpr hgt)

/-- The integers of an interval. -/
def members (a : Interval) : Set Int := {n | n ∈ a}

/-- On canonical intervals the order of ends is inclusion of sets. -/
private theorem members_subset_iff (hc : a.Canonical) : a.members ⊆ b.members ↔ a ≤ b :=
  ⟨fun h => le_of_forall_mem hc fun _ hn => h hn, fun h _ hn => mem_of_le h hn⟩

/-- The relation between two sets that an answer stands for. -/
def Inclusion.Holds (s t : Set Int) : Inclusion → Prop
  | subset => s ⊆ t ∧ ¬t ⊆ s
  | equal => s = t
  | superset => t ⊆ s ∧ ¬s ⊆ t
  | incomparable => ¬s ⊆ t ∧ ¬t ⊆ s

/-- The four answers exclude each other, and the one that is given is right. -/
theorem inclusion_eq_iff (ha : a.Canonical) (hb : b.Canonical) (r : Inclusion) :
    a.inclusion b = r ↔ r.Holds a.members b.members := by
  have hab := members_subset_iff (b := b) ha
  have hba := members_subset_iff (b := a) hb
  unfold inclusion
  -- the answer is computed from the two inclusions, and so is each relation
  by_cases hle : a ≤ b <;> by_cases hge : b ≤ a <;> cases r <;>
    simp [Inclusion.Holds, hle, hge, hab, hba, Set.Subset.antisymm_iff]

/-- Two canonical intervals of which neither lies beyond the other have a common member. -/
theorem exists_mem_both (ha : a.Canonical) (hb : b.Canonical) (hane : a.isEmpty = false)
    (hbne : b.isEmpty = false) (hab : a.low ≤ b.high) (hba : b.low ≤ a.high) :
    ∃ n, n ∈ a ∧ n ∈ b := by
  have hends : max a.low b.low ≤ min a.high b.high :=
    max_le (le_min (isEmpty_eq_false_iff.mp hane) hab) (le_min hba (isEmpty_eq_false_iff.mp hbne))
  -- the common part has its ends in order, and canonical intervals of that kind have members
  have hmeet : (a.meet b).isEmpty = false := by
    rw [meet, between, if_neg (not_lt.mpr hends)]
    exact isEmpty_eq_false_iff.mpr hends
  obtain ⟨n, hn⟩ := exists_mem_of_canonical (ha.meet hb) hmeet
  exact ⟨n, mem_meet.mp hn⟩

/-- Two members apart, in a canonical interval that is not a single value. -/
theorem exists_mem_ne (hc : a.Canonical) (hne : a.isEmpty = false) (hconstant : a.constant? = none)
    (n : Int) : ∃ m ∈ a, m ≠ n := by
  by_contra! hall
  -- otherwise the interval would be a single value
  have hle : a ≤ point n := le_of_forall_mem hc fun m hm => mem_point.mpr (hall m hm)
  rw [constant?_eq_some_iff.mpr (eq_point_of_le hne hle)] at hconstant
  cases hconstant

/-! ## §3 Sums, differences and multiples -/

/-- A sum with a member has no empty summand. -/
theorem isEmpty_of_mem_add (h : n ∈ a + b) : a.isEmpty = false ∧ b.isEmpty = false := by
  have hguard : (a.isEmpty || b.isEmpty) = false := by
    by_contra hempty
    have hsum : a + b = empty := if_pos (Bool.of_not_eq_false hempty)
    rw [hsum] at h
    exact not_mem_empty h
  exact Bool.or_eq_false_iff.mp hguard

theorem isEmpty_point (n : Int) : (point n).isEmpty = false :=
  isEmpty_eq_false_of_mem (mem_point.mpr rfl)

/-- What is left of `n` once a member of `b` has been taken away. -/
theorem point_sub_eq (hb : b.isEmpty = false) (n : Int) :
    point n - b = ⟨.finite n - b.high, .finite n - b.low⟩ := by
  have hends : .finite n - b.high ≤ .finite n - b.low :=
    Bound.sub_le_sub (Bound.le_refl _) (isEmpty_eq_false_iff.mp hb)
  have hsub : point n - b = between (.finite n - b.high) (.finite n - b.low) :=
    if_neg (by rw [isEmpty_point, hb]; exact Bool.false_ne_true)
  rw [hsub, between, if_neg (not_lt.mpr hends)]

/-- The members of `point n - b` are what is left of `n` once a member of `b` has been taken away.
-/
private theorem mem_point_sub (hb : b.isEmpty = false) {x : Int} : x ∈ point n - b ↔ n - x ∈ b := by
  rw [point_sub_eq hb]
  exact and_comm.trans (and_congr Bound.finite_le_finite_sub Bound.finite_sub_le_finite)

/-- A sum leaves no gaps: each of its members is a sum of members. -/
theorem exists_of_mem_add (ha : a.Canonical) (hb : b.Canonical) (h : n ∈ a + b) :
    ∃ x ∈ a, ∃ y ∈ b, x + y = n := by
  obtain ⟨hane, hbne⟩ := isEmpty_of_mem_add h
  have hends : a.low + b.low ≤ .finite n ∧ .finite n ≤ a.high + b.high := by
    have hsum : a + b = between (a.low + b.low) (a.high + b.high) := if_neg (by simp [hane, hbne])
    exact mem_between.mp (hsum ▸ h)
  obtain ⟨y, hy⟩ := exists_mem_of_canonical hb hbne
  have hmem : n - y ∈ point n - b := (mem_point_sub hbne).mpr (by rwa [Int.sub_sub_self])
  -- the left summand and what `n` leaves for it reach each other
  have hends' := point_sub_eq hbne n
  obtain ⟨x, hxa, hx⟩ := exists_mem_both ha (canonical_of_mem hmem) hane
    (isEmpty_eq_false_of_mem hmem)
    (hends' ▸ Bound.le_finite_sub_of_add_le (ha.ends hane).1 hends.1)
    (hends' ▸ Bound.finite_sub_le_of_le_add (ha.ends hane).2 hends.2)
  exact ⟨x, hxa, n - x, (mem_point_sub hbne).mp hx, by omega⟩

/-- Nor does an inverse. -/
theorem neg_mem_of_mem_neg (h : n ∈ -a) : -n ∈ a := by
  by_cases hne : a.isEmpty = true
  · have hneg : -a = empty := if_pos hne
    rw [hneg] at h
    exact absurd h not_mem_empty
  · have hneg : -a = between (-a.high) (-a.low) := if_neg hne
    obtain ⟨hlow, hhigh⟩ := mem_between.mp (hneg ▸ h)
    refine ⟨Bound.le_finite_of_neg_le (by rwa [Int.neg_neg]), ?_⟩
    have hle := Bound.neg_le_neg hlow
    rwa [Bound.neg_neg] at hle

/-- A difference is a sum with an inverse, as an equation between pairs of ends. -/
theorem sub_eq_add_neg (a b : Interval) : a - b = a + -b := by
  show Interval.sub a b = Interval.add a (Interval.neg b)
  unfold Interval.sub Interval.add Interval.neg
  cases hb : b.isEmpty with
  | true =>
    have hempty : empty.isEmpty = true := rfl
    simp [hempty]
  | false =>
    -- the ends of the inverse stay in order, so that it is written with them
    have hends := Bound.neg_le_neg (isEmpty_eq_false_iff.mp hb)
    have hneg : between (-b.high) (-b.low) = ⟨-b.high, -b.low⟩ := if_neg (not_lt.mpr hends)
    have hne : (⟨-b.high, -b.low⟩ : Interval).isEmpty = false := isEmpty_eq_false_iff.mpr hends
    rw [if_neg Bool.false_ne_true, hneg, hne]
    rfl

/-- A difference leaves no gaps, because a sum and an inverse leave none. -/
theorem exists_of_mem_sub (ha : a.Canonical) (hb : b.Canonical) (h : n ∈ a - b) :
    ∃ x ∈ a, ∃ y ∈ b, x - y = n := by
  rw [sub_eq_add_neg] at h
  obtain ⟨x, hx, y, hy, hsum⟩ := exists_of_mem_add ha hb.neg h
  exact ⟨x, hx, -y, neg_mem_of_mem_neg hy, by omega⟩

private theorem hull_repeat {p q : Bound} (h : p ≤ q) : hull p q p q = between p q := by
  simp [hull, h]

/-- Multiplying by `1` or `-1` leaves no gaps. -/
theorem exists_of_mem_unit_mul {k : Int} (hk : k = 1 ∨ k = -1) (h : n ∈ point k * a) :
    ∃ x ∈ a, n = k * x := by
  cases hne : a.isEmpty with
  | true =>
    have hproduct : point k * a = empty := if_pos (by rw [hne, Bool.or_true])
    rw [hproduct] at h
    exact absurd h not_mem_empty
  | false =>
    have hends := isEmpty_eq_false_iff.mp hne
    have hproduct : point k * a = hull (.finite k * a.low) (.finite k * a.high)
        (.finite k * a.low) (.finite k * a.high) :=
      if_neg (by rw [isEmpty_point, hne]; exact Bool.false_ne_true)
    rw [hproduct] at h
    rcases hk with rfl | rfl
    · rw [Bound.finite_one_mul, Bound.finite_one_mul, hull_repeat hends] at h
      exact ⟨n, mem_between.mp h, (Int.one_mul n).symm⟩
    · -- the inverse turns the ends around
      rw [Bound.finite_neg_one_mul, Bound.finite_neg_one_mul] at h
      have hneg : -a = between (-a.high) (-a.low) := if_neg (Bool.not_eq_true _ ▸ hne)
      have hmem : n ∈ -a := by
        rw [hneg]
        have hle := Bound.neg_le_neg hends
        simpa [hull, hle] using h
      exact ⟨-n, neg_mem_of_mem_neg hmem, by omega⟩

/-! ## §4 Solving for a factor -/

/-- The members of a rounded quotient are solutions. -/
theorem mul_mem_of_mem_divExact {k : Int} (hk : k ≠ 0) (h : n ∈ a.divExact k) : k * n ∈ a := by
  unfold divExact at h
  split at h
  · exact absurd h not_mem_empty
  split at h
  · rename_i hpos
    obtain ⟨hlow, hhigh⟩ := mem_between.mp h
    refine ⟨?_, Bound.finite_mul_le_of_le_floorDiv hpos hhigh⟩
    -- rounding up is rounding down of the inverse
    rw [Bound.ceilDiv_eq hk, Bound.floorDiv_neg hk] at hlow
    have hle := Bound.neg_le_neg hlow
    rw [Bound.neg_neg, Bound.neg_finite] at hle
    have hproduct := Bound.finite_mul_le_of_le_floorDiv hpos hle
    rw [Int.mul_neg] at hproduct
    exact Bound.le_finite_of_neg_le hproduct
  · rename_i hpos
    -- a negative factor is replaced by its inverse, and the ends change places
    have hneg : 0 < -k := by omega
    obtain ⟨hhigh, hlow⟩ := mem_between.mp h
    constructor
    · rw [← Int.neg_neg k, Bound.floorDiv_neg (by omega)] at hlow
      have hproduct := Bound.finite_mul_le_of_le_floorDiv hneg hlow
      rw [Int.neg_mul] at hproduct
      exact Bound.le_finite_of_neg_le hproduct
    · rw [Bound.ceilDiv_eq hk] at hhigh
      have hle := Bound.neg_le_neg hhigh
      rw [Bound.neg_neg, Bound.neg_finite] at hle
      have hproduct := Bound.finite_mul_le_of_le_floorDiv hneg hle
      rwa [Int.neg_mul_neg] at hproduct

end Interval

end RangeGuard
