import RangeGuard.Interval.Arithmetic
import RangeGuard.Proofs.Interval.Membership

/-!
# Interval arithmetic encloses integer arithmetic

Each operation on intervals holds every result of the integer operation on members. This is the
soundness of the arithmetic, and the expression evaluator needs nothing else of it.

## How the cases are handled

- *Sums, differences, inverses.* The ends of the result are results on ends, and a sum of lower ends
  is a lower end of the sum.
- *Products and quotients.* The result is the hull of the four corners. One lemma serves both
  (`mem_hull`): an operation that is monotone or antitone in each argument attains its extremes at
  the corners. For the quotient this holds on each side of zero, which is why the divisor is split
  there before the corners are taken.
- *Remainders.* A remainder lies between zero and the dividend, and is smaller in magnitude than the
  divisor. The result combines both bounds, and the proof follows the sign of the dividend.
- *Solving for a factor.* The ends are divided and rounded inward, which loses no integer solution.
-/

namespace RangeGuard

namespace Interval

variable {a b : Interval} {x y : Int}

/-! ## §1 Corners -/

/-- A map that is monotone or antitone between two ends has its extremes at the ends. -/
private theorem extremes_at_ends {f : Bound → Bound} {low high p : Bound}
    (hf : MonotoneOn f (Set.Icc low high) ∨ AntitoneOn f (Set.Icc low high))
    (hlow : low ≤ p) (hhigh : p ≤ high) :
    (∃ q, (q = low ∨ q = high) ∧ f q ≤ f p) ∧ ∃ q, (q = low ∨ q = high) ∧ f p ≤ f q := by
  have hl : low ∈ Set.Icc low high := ⟨le_rfl, hlow.trans hhigh⟩
  have hp : p ∈ Set.Icc low high := ⟨hlow, hhigh⟩
  have hh : high ∈ Set.Icc low high := ⟨hlow.trans hhigh, le_rfl⟩
  -- the direction decides which end is the smallest value and which the largest
  rcases hf with hf | hf
  · exact ⟨⟨low, .inl rfl, hf hl hp hlow⟩, ⟨high, .inr rfl, hf hp hh hhigh⟩⟩
  · exact ⟨⟨high, .inr rfl, hf hp hh hhigh⟩, ⟨low, .inl rfl, hf hl hp hlow⟩⟩

/-- The corners enclose an operation that depends on each of its arguments in one direction, at all
ends between those of its arguments. -/
theorem corners_enclose {f : Bound → Bound → Bound} {p q : Bound}
    (hp : p ∈ Set.Icc a.low a.high) (hq : q ∈ Set.Icc b.low b.high)
    (hleft : Monotone (f · q) ∨ Antitone (f · q))
    (hright : ∀ p, MonotoneOn (f p) (Set.Icc b.low b.high) ∨
      AntitoneOn (f p) (Set.Icc b.low b.high)) :
    min (min (min (f a.low b.low) (f a.low b.high)) (f a.high b.low)) (f a.high b.high) ≤ f p q ∧
    f p q ≤
      max (max (max (f a.low b.low) (f a.low b.high)) (f a.high b.low)) (f a.high b.high) := by
  rw [min_le_iff, min_le_iff, min_le_iff, le_max_iff, le_max_iff, le_max_iff]
  -- move the left argument to one of its ends, then the right one
  obtain ⟨⟨l, hl, hlp⟩, ⟨l', hl', hlp'⟩⟩ :=
    extremes_at_ends (hleft.imp (·.monotoneOn _) (·.antitoneOn _)) hp.1 hp.2
  constructor
  · obtain ⟨⟨r, hr, hrq⟩, -⟩ := extremes_at_ends (hright l) hq.1 hq.2
    have hcorner := hrq.trans hlp
    rcases hl with rfl | rfl <;> rcases hr with rfl | rfl <;> simp [hcorner]
  · obtain ⟨-, ⟨r, hr, hrq⟩⟩ := extremes_at_ends (hright l') hq.1 hq.2
    have hcorner := hlp'.trans hrq
    rcases hl' with rfl | rfl <;> rcases hr with rfl | rfl <;> simp [hcorner]

/-- The hull of the corners encloses an operation that depends on each of its arguments in one
direction. -/
theorem mem_hull {f : Bound → Bound → Bound} {n : Int} (hx : x ∈ a) (hy : y ∈ b)
    (hleft : Monotone (f · (.finite y)) ∨ Antitone (f · (.finite y)))
    (hright : ∀ p, MonotoneOn (f p) (Set.Icc b.low b.high) ∨
      AntitoneOn (f p) (Set.Icc b.low b.high))
    (hn : f (.finite x) (.finite y) = .finite n) :
    n ∈ hull (f a.low b.low) (f a.low b.high) (f a.high b.low) (f a.high b.high) := by
  rw [hull, mem_between, ← hn]
  exact corners_enclose hx hy hleft hright

/-! ## §2 Sums and products -/

/-- Sums of members are members of the sum. -/
theorem mem_add (hx : x ∈ a) (hy : y ∈ b) : x + y ∈ a + b := by
  show x + y ∈ Interval.add a b
  rw [Interval.add, isEmpty_eq_false_of_mem hx, isEmpty_eq_false_of_mem hy]
  exact mem_between.mpr ⟨Bound.add_le_finite hx.1 hy.1, Bound.finite_le_add hx.2 hy.2⟩

/-- Inverses of members are members of the inverse. -/
theorem mem_neg (hx : x ∈ a) : -x ∈ -a := by
  show -x ∈ Interval.neg a
  rw [Interval.neg, isEmpty_eq_false_of_mem hx]
  exact mem_between.mpr ⟨Bound.neg_le_neg hx.2, Bound.neg_le_neg hx.1⟩

/-- Differences of members are members of the difference. -/
theorem mem_sub (hx : x ∈ a) (hy : y ∈ b) : x - y ∈ a - b := by
  show x - y ∈ Interval.sub a b
  rw [Interval.sub, isEmpty_eq_false_of_mem hx, isEmpty_eq_false_of_mem hy, Int.sub_eq_add_neg]
  exact mem_between.mpr ⟨Bound.add_le_finite hx.1 (Bound.neg_le_neg hy.2),
    Bound.finite_le_add hx.2 (Bound.neg_le_neg hy.1)⟩

/-- Products of members are members of the product. -/
theorem mem_mul (hx : x ∈ a) (hy : y ∈ b) : x * y ∈ a * b := by
  show x * y ∈ Interval.mul a b
  rw [Interval.mul, isEmpty_eq_false_of_mem hx, isEmpty_eq_false_of_mem hy]
  exact mem_hull hx hy (Bound.mul_right_directed _)
    (fun p => (Bound.mul_left_directed p).imp (·.monotoneOn _) (·.antitoneOn _)) rfl

/-! ## §3 Quotients and remainders -/

/-- The negative part of a divisor has its negative members. -/
theorem mem_negativePart : x ∈ a.negativePart ↔ x ∈ a ∧ x < 0 := by
  rw [negativePart, mem_meet, mem_between, Bound.finite_le_finite]
  simp only [Bound.negInf_le, true_and]
  exact and_congr_right fun _ => by omega

/-- The positive part of a divisor has its positive members. -/
theorem mem_positivePart : x ∈ a.positivePart ↔ x ∈ a ∧ 0 < x := by
  rw [positivePart, mem_meet, mem_between, Bound.finite_le_finite]
  simp only [Bound.le_posInf, and_true]
  exact and_congr_right fun _ => by omega

/-- A negative part that has a member ends below zero. -/
private theorem high_negativePart (h : x ∈ a.negativePart) :
    a.negativePart.high ≤ .finite (-1) := by
  rw [negativePart, meet, between_eq_of_mem h]
  exact min_le_right _ _

/-- A positive part that has a member starts above zero. -/
private theorem low_positivePart (h : x ∈ a.positivePart) : .finite 1 ≤ a.positivePart.low := by
  rw [positivePart, meet, between_eq_of_mem h]
  exact le_max_right _ _

/-- Every nonzero member of a divisor lies in one of its parts. -/
theorem exists_nonzeroParts (hy : y ∈ b) (hne : y ≠ 0) :
    ∃ part ∈ b.nonzeroParts, y ∈ part ∧
      (part.high ≤ .finite (-1) ∨ .finite 1 ≤ part.low) := by
  -- the sign of the member says in which part it is
  rcases lt_or_gt_of_ne hne with hlt | hgt
  · have hmem : y ∈ b.negativePart := mem_negativePart.mpr ⟨hy, hlt⟩
    refine ⟨b.negativePart, ?_, hmem, .inl (high_negativePart hmem)⟩
    simp [nonzeroParts, isEmpty_eq_false_of_mem hmem]
  · have hmem : y ∈ b.positivePart := mem_positivePart.mpr ⟨hy, hgt⟩
    refine ⟨b.positivePart, ?_, hmem, .inr (low_positivePart hmem)⟩
    simp [nonzeroParts, isEmpty_eq_false_of_mem hmem]

private theorem mem_quotientHull {part : Interval} (hx : x ∈ a) (hy : y ∈ part)
    (hside : part.high ≤ .finite (-1) ∨ .finite 1 ≤ part.low) :
    x.tdiv y ∈ a.quotientHull part := by
  -- the member of the divisor has the sign of its ends
  have hy' : Bound.finite y ≤ .finite (-1) ∨ Bound.finite 1 ≤ .finite y :=
    hside.imp (fun hneg => hy.2.trans hneg) fun hpos => hpos.trans hy.1
  exact mem_hull hx hy (Bound.tdiv_right_directed hy') (Bound.tdiv_left_directed hside) rfl

/-- A fold of joins keeps the members of its start and of every interval that it joins. -/
private theorem mem_foldl_join {f : Interval → Interval} {n : Int} (parts : List Interval)
    (acc : Interval) (h : n ∈ acc ∨ ∃ part ∈ parts, n ∈ f part) :
    n ∈ parts.foldl (fun acc part => acc.join (f part)) acc := by
  -- the member is in the accumulator already or comes with a later part
  induction parts generalizing acc with
  | nil =>
    rcases h with h | ⟨part, hpart, -⟩
    · exact h
    · cases hpart
  | cons part rest ih =>
    apply ih
    rcases h with h | ⟨other, hother, hn⟩
    · exact .inl (mem_join_left h)
    · rcases List.mem_cons.mp hother with rfl | hrest
      · exact .inl (mem_join_right hn)
      · exact .inr ⟨other, hrest, hn⟩

/-- Quotients of members are members of the quotient, for every divisor other than zero. -/
theorem mem_tdiv (hx : x ∈ a) (hy : y ∈ b) (hne : y ≠ 0) : x.tdiv y ∈ a.tdiv b := by
  rw [tdiv, isEmpty_eq_false_of_mem hx, if_neg Bool.false_ne_true]
  obtain ⟨part, hpart, hmem, hside⟩ := exists_nonzeroParts hy hne
  -- the part with the divisor in it contributes the quotient to the join
  exact mem_foldl_join _ _ (.inr ⟨part, hpart, mem_quotientHull hx hmem hside⟩)

/-- A remainder by a member of a divisor stays within the limit in magnitude. -/
private theorem finite_le_remainderLimit {m : Int} (hy : y ∈ b) (hm : m < y.natAbs) :
    .finite m ≤ b.remainderLimit := by
  -- the magnitude of a member is at most that of one of the ends
  have habs : .finite (y.natAbs : Int) ≤ max b.low.abs b.high.abs := by
    rcases Int.le_total 0 y with hsign | hsign
    · rw [Int.natAbs_of_nonneg hsign]
      exact le_max_of_le_right (hy.2.trans (Bound.le_abs_self _))
    · rw [Int.ofNat_natAbs_of_nonpos hsign]
      exact le_max_of_le_left ((Bound.neg_le_neg hy.1).trans (Bound.neg_le_abs _))
  unfold remainderLimit
  split
  · rename_i k hk
    rw [hk, Bound.finite_le_finite] at habs
    exact Bound.finite_le_finite.mpr (by omega)
  · rename_i hinf
    refine (Bound.finite_le_finite.mpr ?_).trans habs
    omega

/-- A remainder lies between zero and the dividend. -/
private theorem tmod_between (x y : Int) :
    (0 ≤ x → 0 ≤ x.tmod y ∧ x.tmod y ≤ x) ∧ (x ≤ 0 → x ≤ x.tmod y ∧ x.tmod y ≤ 0) := by
  have hnonneg : ∀ {z : Int}, 0 ≤ z → 0 ≤ z.tmod y ∧ z.tmod y ≤ z := by
    intro z hz
    have hr := Int.tmod_nonneg y hz
    have hle : (z.tmod y).natAbs ≤ z.natAbs := by
      rw [Int.natAbs_tmod]
      exact Nat.mod_le _ _
    omega
  -- a negative dividend has the remainder of its inverse, with the sign changed
  refine ⟨hnonneg, fun hx => ?_⟩
  have h := hnonneg (show 0 ≤ -x by omega)
  rw [Int.neg_tmod] at h
  omega

/-- Remainders of members are members of the remainder, for every divisor other than zero. -/
theorem mem_tmod (hx : x ∈ a) (hy : y ∈ b) (hne : y ≠ 0) : x.tmod y ∈ a.tmod b := by
  -- the divisor is not only zero, so the remainder is not the empty interval
  obtain ⟨part, hpart, -⟩ := exists_nonzeroParts hy hne
  have hparts : b.nonzeroParts.isEmpty = false :=
    List.isEmpty_eq_false_iff_exists_mem.mpr ⟨part, hpart⟩
  rw [tmod, isEmpty_eq_false_of_mem hx, if_neg Bool.false_ne_true, hparts,
    if_neg Bool.false_ne_true, mem_between]
  obtain ⟨hpos, hneg⟩ := tmod_between x y
  -- in magnitude the remainder is below the divisor, which gives both limits
  have hsmall : (x.tmod y).natAbs < y.natAbs := by
    rw [Int.natAbs_tmod]
    exact Nat.mod_lt _ (by omega)
  have hupper : .finite (x.tmod y) ≤ b.remainderLimit := finite_le_remainderLimit hy (by omega)
  have hlower : -b.remainderLimit ≤ .finite (x.tmod y) := by
    have h := Bound.neg_le_neg (finite_le_remainderLimit hy (m := -x.tmod y) (by omega))
    simpa only [Bound.neg_finite, Int.neg_neg] using h
  rcases Int.le_total 0 x with hsign | hsign
  · -- a dividend that is not negative: the remainder lies between zero and it
    obtain ⟨hr, hrx⟩ := hpos hsign
    constructor
    · split
      · rename_i hlow
        have hzero := Bound.sign_nonpos_iff.mp hlow.le
        exact max_le (hzero.trans (Bound.finite_le_finite.mpr hr)) hlower
      · exact Bound.finite_le_finite.mpr hr
    · split
      · exact le_min ((Bound.finite_le_finite.mpr hrx).trans hx.2) hupper
      · rename_i hhigh
        have hzero := hx.2.trans (Bound.sign_nonpos_iff.mp (not_lt.mp hhigh))
        exact (Bound.finite_le_finite.mpr hrx).trans hzero
  · -- a dividend that is not positive: the remainder lies between it and zero
    obtain ⟨hxr, hr⟩ := hneg hsign
    constructor
    · split
      · exact max_le (hx.1.trans (Bound.finite_le_finite.mpr hxr)) hlower
      · rename_i hlow
        have hzero := (Bound.sign_nonneg_iff.mp (not_lt.mp hlow)).trans hx.1
        exact hzero.trans (Bound.finite_le_finite.mpr hxr)
    · split
      · rename_i hhigh
        have hzero := Bound.sign_nonneg_iff.mp hhigh.le
        exact le_min ((Bound.finite_le_finite.mpr hr).trans hzero) hupper
      · exact Bound.finite_le_finite.mpr hr

/-! ## §4 Solving for a factor -/

/-- Solving for a factor loses no solution. -/
theorem mem_divExact {k : Int} (hk : k ≠ 0) (h : k * x ∈ a) : x ∈ a.divExact k := by
  rw [divExact, isEmpty_eq_false_of_mem h, if_neg Bool.false_ne_true]
  split
  · rename_i hpos
    refine mem_between.mpr ⟨?_, Bound.finite_le_floorDiv hpos h.2⟩
    -- the lower end, rounded up, is the inverse of an upper end that is rounded down
    rw [Bound.ceilDiv_eq hk, Bound.floorDiv_neg hk]
    have hlow := Bound.neg_le_neg h.1
    rw [Bound.neg_finite, ← Int.mul_neg] at hlow
    have hle := Bound.neg_le_neg (Bound.finite_le_floorDiv hpos hlow)
    simpa only [Bound.neg_finite, Int.neg_neg] using hle
  · rename_i hpos
    -- a negative factor swaps the ends: divide by its inverse
    have hneg : 0 < -k := by omega
    refine mem_between.mpr ⟨?_, ?_⟩
    · rw [Bound.ceilDiv_eq hk]
      have hhigh := h.2
      rw [← Int.neg_mul_neg] at hhigh
      have hle := Bound.neg_le_neg (Bound.finite_le_floorDiv hneg hhigh)
      simpa only [Bound.neg_finite, Int.neg_neg] using hle
    · have hlow := Bound.neg_le_neg h.1
      rw [Bound.neg_finite, ← Int.neg_mul] at hlow
      have hle := Bound.finite_le_floorDiv hneg hlow
      rwa [← Bound.floorDiv_neg (by omega), Int.neg_neg] at hle

end Interval

end RangeGuard
