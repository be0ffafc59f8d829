import RangeGuard.Proofs.Interval.Enclosure
import RangeGuard.Proofs.Interval.Order

/-!
# Interval arithmetic is monotone

Larger arguments give larger results, for every operation and all pairs of ends. Together with
enclosure this is what the transfer functions need: they are sound by enclosure and monotone by the
statements here.

For sums, inverses and rounded quotients the ends move outward one by one. For products and
quotients the corners of the smaller arguments lie between ends of the larger ones, and the larger
hull encloses everything there; `hull_le_hull` reuses the lemma on corners from the proof of
enclosure.

The quotient and the remainder split the divisor at zero. A larger divisor may have a part that the
smaller one lacks but not the other way round (`exists_part_of_le`), so that each quotient on the
left lies in one on the right. The remainder grows because the largest magnitude of its divisor
does.
-/

namespace RangeGuard

/-! ## §1 Ends -/

namespace Bound

variable {p p' q q' : Bound}

/-- Sums of larger ends are larger, with the convention that `+∞` wins over `-∞` in a sum. -/
theorem add_le_add (hp : p ≤ p') (hq : q ≤ q') : p + q ≤ p' + q' := by
  -- `+∞` absorbs everything, and `-∞` everything else
  cases p with
  | posInf =>
    obtain rfl : p' = posInf := le_antisymm (le_posInf _) hp
    cases q <;> cases q' <;> exact le_refl _
  | negInf =>
    cases q with
    | posInf =>
      obtain rfl : q' = posInf := le_antisymm (le_posInf _) hq
      cases p' <;> exact le_refl _
    | negInf => exact negInf_le _
    | finite n => exact negInf_le _
  | finite m =>
    cases q with
    | posInf =>
      obtain rfl : q' = posInf := le_antisymm (le_posInf _) hq
      cases p' <;> exact le_refl _
    | negInf => exact negInf_le _
    | finite n =>
      cases p' with
      | negInf => exact absurd hp (not_finite_le_negInf m)
      | posInf => cases q' <;> exact le_posInf _
      | finite m' =>
        cases q' with
        | negInf => exact absurd hq (not_finite_le_negInf n)
        | posInf => exact le_posInf _
        | finite n' => exact finite_le_finite.mpr (Int.add_le_add hp hq)

theorem sub_le_sub (hp : p ≤ p') (hq : q' ≤ q) : p - q ≤ p' - q' :=
  add_le_add hp (neg_le_neg hq)

private theorem floorDiv_le_floorDiv {k : Int} (hk : 0 < k) (h : p ≤ q) :
    p.floorDiv k ≤ q.floorDiv k := by
  -- a positive divisor leaves the infinities where they are
  have hneg : negInf.floorDiv k = negInf := by simp [floorDiv, not_lt_of_gt hk]
  have hpos : posInf.floorDiv k = posInf := by simp [floorDiv, not_lt_of_gt hk]
  cases p with
  | negInf =>
    rw [hneg]
    exact negInf_le _
  | posInf =>
    obtain rfl : q = posInf := le_antisymm (le_posInf _) h
    exact le_refl _
  | finite m =>
    cases q with
    | negInf => exact absurd h (not_finite_le_negInf m)
    | posInf =>
      rw [hpos]
      exact le_posInf _
    | finite n =>
      apply finite_le_finite.mpr
      rw [Int.fdiv_eq_ediv_of_nonneg m hk.le, Int.fdiv_eq_ediv_of_nonneg n hk.le]
      exact Int.ediv_le_ediv hk (finite_le_finite.mp h)

/-- A negative divisor turns the order around. -/
theorem floorDiv_le_floorDiv_of_neg {k : Int} (hk : k < 0) (h : p ≤ q) :
    q.floorDiv k ≤ p.floorDiv k := by
  have hle := floorDiv_le_floorDiv (show 0 < -k by omega) (neg_le_neg h)
  rwa [← floorDiv_neg (by omega), ← floorDiv_neg (by omega), Int.neg_neg] at hle

private theorem ceilDiv_le_ceilDiv {k : Int} (hk : 0 < k) (h : p ≤ q) :
    p.ceilDiv k ≤ q.ceilDiv k := by
  rw [ceilDiv_eq hk.ne', ceilDiv_eq hk.ne']
  exact neg_le_neg (floorDiv_le_floorDiv_of_neg (by omega) h)

private theorem ceilDiv_le_ceilDiv_of_neg {k : Int} (hk : k < 0) (h : p ≤ q) :
    q.ceilDiv k ≤ p.ceilDiv k := by
  rw [ceilDiv_eq hk.ne, ceilDiv_eq hk.ne]
  exact neg_le_neg (floorDiv_le_floorDiv (by omega) h)

/-- Between two ends no absolute value is larger than theirs. -/
theorem abs_le_max_abs {low high : Bound} (hlow : low ≤ p) (hhigh : p ≤ high) :
    p.abs ≤ max low.abs high.abs := by
  rw [abs]
  -- a negative end is bounded through the lower one, any other through the upper one
  split
  · exact le_max_of_le_left ((neg_le_neg hlow).trans (neg_le_abs low))
  · exact le_max_of_le_right (hhigh.trans (le_abs_self high))

private theorem sign_neg_of_le (h : p ≤ q) (hq : q.sign < 0) : p.sign < 0 := by
  by_contra hp
  have := sign_nonneg_iff.mpr ((sign_nonneg_iff.mp (not_lt.mp hp)).trans h)
  omega

private theorem sign_pos_of_le (h : p ≤ q) (hp : 0 < p.sign) : 0 < q.sign := by
  by_contra hq
  have := sign_nonpos_iff.mpr (h.trans (sign_nonpos_iff.mp (not_lt.mp hq)))
  omega

/-- Between an integer and its successor there is no end. -/
theorem succ_le_of_ne {n : Int} (h : finite n ≤ p) (hne : p ≠ finite n) : finite (n + 1) ≤ p := by
  cases p with
  | negInf => exact h.elim
  | posInf => exact le_posInf _
  | finite m =>
    have hle := finite_le_finite.mp h
    have hmn : m ≠ n := fun hmn => hne (congrArg finite hmn)
    exact finite_le_finite.mpr (by omega)

/-- Between an integer and its predecessor there is no end. -/
theorem le_pred_of_ne {n : Int} (h : p ≤ finite n) (hne : p ≠ finite n) : p ≤ finite (n - 1) := by
  cases p with
  | negInf => exact negInf_le _
  | posInf => exact h.elim
  | finite m =>
    have hle := finite_le_finite.mp h
    have hmn : m ≠ n := fun hmn => hne (congrArg finite hmn)
    exact finite_le_finite.mpr (by omega)

end Bound

/-! ## §2 Sums and products -/

namespace Interval

variable {a a' b b' : Interval}

/-- The ends of a nonempty interval lie between those of any interval around it. -/
private theorem ends_mem_Icc (h : a ≤ b) (ha : a.isEmpty = false) :
    a.low ∈ Set.Icc b.low b.high ∧ a.high ∈ Set.Icc b.low b.high := by
  obtain ⟨hlow, hhigh⟩ := (le_iff_of_nonempty ha).mp h
  have hends := isEmpty_eq_false_iff.mp ha
  exact ⟨⟨hlow, hends.trans hhigh⟩, ⟨hlow.trans hends, hhigh⟩⟩

/-- An operation on two intervals that is empty where one of them is and monotone elsewhere. -/
theorem binary_le_binary {f : Interval → Interval → Interval} (ha : a ≤ a') (hb : b ≤ b')
    (hf : a.isEmpty = false → b.isEmpty = false → f a b ≤ f a' b') :
    (if a.isEmpty || b.isEmpty then empty else f a b) ≤
      (if a'.isEmpty || b'.isEmpty then empty else f a' b') := by
  apply guard_le_guard
  · simp only [Bool.or_eq_true]
    exact Or.imp (isEmpty_of_le ha) (isEmpty_of_le hb)
  · simp only [Bool.or_eq_false_iff]
    exact fun h => hf h.1 h.2

/-- Sums of larger intervals are larger. -/
theorem add_le_add (ha : a ≤ a') (hb : b ≤ b') : a + b ≤ a' + b' := by
  refine binary_le_binary (f := fun a b => between (a.low + b.low) (a.high + b.high)) ha hb ?_
  intro hane hbne
  obtain ⟨halow, hahigh⟩ := (le_iff_of_nonempty hane).mp ha
  obtain ⟨hblow, hbhigh⟩ := (le_iff_of_nonempty hbne).mp hb
  exact between_le_between (Bound.add_le_add halow hblow) (Bound.add_le_add hahigh hbhigh)

theorem sub_le_sub (ha : a ≤ a') (hb : b ≤ b') : a - b ≤ a' - b' := by
  refine binary_le_binary (f := fun a b => between (a.low - b.high) (a.high - b.low)) ha hb ?_
  intro hane hbne
  obtain ⟨halow, hahigh⟩ := (le_iff_of_nonempty hane).mp ha
  obtain ⟨hblow, hbhigh⟩ := (le_iff_of_nonempty hbne).mp hb
  exact between_le_between (Bound.sub_le_sub halow hbhigh) (Bound.sub_le_sub hahigh hblow)

/-- Inverses of larger intervals are larger: both ends change sides. -/
theorem neg_le_neg (ha : a ≤ a') : -a ≤ -a' := by
  apply guard_le_guard (isEmpty_of_le ha)
  intro hane
  obtain ⟨hlow, hhigh⟩ := (le_iff_of_nonempty hane).mp ha
  exact between_le_between (Bound.neg_le_neg hhigh) (Bound.neg_le_neg hlow)

/-- The hull of the corners of smaller arguments lies in that of larger ones. -/
theorem hull_le_hull {f : Bound → Bound → Bound} (ha : a ≤ a') (hb : b ≤ b')
    (hane : a.isEmpty = false) (hbne : b.isEmpty = false)
    (hleft : ∀ q ∈ Set.Icc b'.low b'.high, Monotone (f · q) ∨ Antitone (f · q))
    (hright : ∀ p, MonotoneOn (f p) (Set.Icc b'.low b'.high) ∨
      AntitoneOn (f p) (Set.Icc b'.low b'.high)) :
    hull (f a.low b.low) (f a.low b.high) (f a.high b.low) (f a.high b.high) ≤
      hull (f a'.low b'.low) (f a'.low b'.high) (f a'.high b'.low) (f a'.high b'.high) := by
  obtain ⟨halow, hahigh⟩ := ends_mem_Icc ha hane
  obtain ⟨hblow, hbhigh⟩ := ends_mem_Icc hb hbne
  -- every corner on the left is a value between the ends on the right
  have hcorner : ∀ {p q}, p ∈ Set.Icc a'.low a'.high → q ∈ Set.Icc b'.low b'.high → _ :=
    fun hp hq => corners_enclose (f := f) hp hq (hleft _ hq) hright
  apply between_le_between
  · exact le_min (le_min (le_min (hcorner halow hblow).1 (hcorner halow hbhigh).1)
      (hcorner hahigh hblow).1) (hcorner hahigh hbhigh).1
  · exact max_le (max_le (max_le (hcorner halow hblow).2 (hcorner halow hbhigh).2)
      (hcorner hahigh hblow).2) (hcorner hahigh hbhigh).2

/-- Products of larger intervals are larger. -/
theorem mul_le_mul (ha : a ≤ a') (hb : b ≤ b') : a * b ≤ a' * b' := by
  refine binary_le_binary (f := fun a b =>
    hull (a.low * b.low) (a.low * b.high) (a.high * b.low) (a.high * b.high)) ha hb ?_
  intro hane hbne
  refine hull_le_hull (f := (· * ·)) ha hb hane hbne (fun q _ => Bound.mul_right_directed q) ?_
  exact fun p => (Bound.mul_left_directed p).imp (·.monotoneOn _) (·.antitoneOn _)

/-! ## §3 Quotients and remainders -/

/-- What a fold of joins is included in. -/
theorem foldl_join_le {f : Interval → Interval} {c : Interval} (parts : List Interval)
    {acc : Interval} (hacc : acc ≤ c) (h : ∀ part ∈ parts, f part ≤ c) :
    parts.foldl (fun acc part => acc.join (f part)) acc ≤ c := by
  induction parts generalizing acc with
  | nil => exact hacc
  | cons part rest ih =>
    rw [List.forall_mem_cons] at h
    exact ih (join_le hacc h.1) h.2

private theorem le_foldl_join {f : Interval → Interval} (parts : List Interval) (acc : Interval) :
    acc ≤ parts.foldl (fun acc part => acc.join (f part)) acc ∧
      ∀ part ∈ parts, f part ≤ parts.foldl (fun acc part => acc.join (f part)) acc := by
  -- the accumulator only grows, and every part has been joined into it at some point
  induction parts generalizing acc with
  | nil => exact ⟨le_refl acc, nofun⟩
  | cons part rest ih =>
    obtain ⟨hacc, hrest⟩ := ih (acc.join (f part))
    refine ⟨le_join_left.trans hacc, ?_⟩
    rw [List.forall_mem_cons]
    exact ⟨le_join_right.trans hacc, hrest⟩

/-- A part of a divisor is one of its two sides of zero, and is listed only if it is not empty. -/
theorem of_mem_nonzeroParts {part : Interval} (h : part ∈ b.nonzeroParts) :
    part.isEmpty = false ∧ part ≤ b ∧ (part = b.negativePart ∨ part = b.positivePart) := by
  obtain ⟨hpart, hne⟩ := List.mem_filter.mp h
  simp only [List.mem_cons, List.not_mem_nil, or_false] at hpart
  refine ⟨by simpa using hne, ?_, hpart⟩
  rcases hpart with rfl | rfl <;> exact meet_le_left

/-- The parts of a divisor have ends of one sign. -/
theorem side_of_mem_nonzeroParts {part : Interval} (h : part ∈ b.nonzeroParts) :
    part.high ≤ .finite (-1) ∨ .finite 1 ≤ part.low := by
  obtain ⟨hne, -, hpart⟩ := of_mem_nonzeroParts h
  -- a part that is not empty keeps the ends that it was cut at
  have hends : ∀ c : Interval, (b.meet c).isEmpty = false →
      b.meet c = ⟨max b.low c.low, min b.high c.high⟩ := by
    intro c hc
    rw [meet, between, if_neg]
    intro hcross
    rw [meet, between, if_pos hcross] at hc
    cases hc
  rcases hpart with rfl | rfl
  · left
    rw [negativePart, hends _ hne]
    exact min_le_right _ _
  · right
    rw [positivePart, hends _ hne]
    exact le_max_right _ _

/-- Every part of a divisor lies in a part of a larger one. -/
theorem exists_part_of_le (hb : b ≤ b') {part : Interval} (h : part ∈ b.nonzeroParts) :
    ∃ part' ∈ b'.nonzeroParts, part ≤ part' := by
  obtain ⟨hne, -, hpart⟩ := of_mem_nonzeroParts h
  have hmember : ∀ part' ∈ [b'.negativePart, b'.positivePart], part ≤ part' →
      ∃ part' ∈ b'.nonzeroParts, part ≤ part' := by
    intro part' hpart' hle
    refine ⟨part', List.mem_filter.mpr ⟨hpart', ?_⟩, hle⟩
    rw [isEmpty_eq_false_of_le hle hne]
    rfl
  simp only [List.mem_cons, List.not_mem_nil, or_false] at hmember
  -- the part on the same side of zero
  rcases hpart with rfl | rfl
  · exact hmember _ (.inl rfl) (meet_le_meet hb (le_refl _))
  · exact hmember _ (.inr rfl) (meet_le_meet hb (le_refl _))

private theorem quotientHull_le_quotientHull {part part' : Interval} (ha : a ≤ a')
    (hpart : part ≤ part') (hane : a.isEmpty = false) (hne : part.isEmpty = false)
    (hside : part'.high ≤ .finite (-1) ∨ .finite 1 ≤ part'.low) :
    a.quotientHull part ≤ a'.quotientHull part' := by
  refine hull_le_hull (f := Bound.tdiv) ha hpart hane hne ?_ (Bound.tdiv_left_directed hside)
  intro q hq
  apply Bound.tdiv_right_directed
  exact hside.imp (fun hneg => hq.2.trans hneg) fun hpos => hpos.trans hq.1

/-- Quotients of larger intervals are larger, also where the divisor has zero in it. -/
theorem tdiv_le_tdiv (ha : a ≤ a') (hb : b ≤ b') : a.tdiv b ≤ a'.tdiv b' := by
  apply guard_le_guard (isEmpty_of_le ha)
  intro hane
  apply foldl_join_le _ empty_le
  intro part hpart
  -- the quotients by a part lie among those by the part around it
  obtain ⟨part', hpart', hle⟩ := exists_part_of_le hb hpart
  have hne := (of_mem_nonzeroParts hpart).1
  have hside := side_of_mem_nonzeroParts hpart'
  exact (quotientHull_le_quotientHull ha hle hane hne hside).trans
    ((le_foldl_join b'.nonzeroParts empty).2 part' hpart')

/-- A larger divisor allows larger remainders. -/
private theorem remainderLimit_le (hb : b ≤ b') (hbne : b.isEmpty = false) :
    b.remainderLimit ≤ b'.remainderLimit := by
  obtain ⟨hlow, hhigh⟩ := ends_mem_Icc hb hbne
  have hmax : max b.low.abs b.high.abs ≤ max b'.low.abs b'.high.abs :=
    max_le (Bound.abs_le_max_abs hlow.1 hlow.2) (Bound.abs_le_max_abs hhigh.1 hhigh.2)
  unfold remainderLimit
  -- only the two magnitudes matter from here on
  generalize max b.low.abs b.high.abs = m at hmax
  generalize max b'.low.abs b'.high.abs = m' at hmax
  cases m with
  | negInf => exact Bound.negInf_le _
  | posInf =>
    obtain rfl : m' = .posInf := le_antisymm (Bound.le_posInf _) hmax
    exact Bound.le_refl _
  | finite k =>
    cases m' with
    | negInf => exact absurd hmax (Bound.not_finite_le_negInf k)
    | posInf => exact Bound.le_posInf _
    | finite k' =>
      have := Bound.finite_le_finite.mp hmax
      exact Bound.finite_le_finite.mpr (by omega)

/-- The lower end of a remainder. A dividend that may be negative gives one that may be. -/
private theorem remainder_low_le {limit limit' : Bound} (hlow : a'.low ≤ a.low)
    (hlimit : limit ≤ limit') (hpos : .finite 0 ≤ limit') :
    (if a'.low.sign < 0 then max a'.low (-limit') else .finite 0) ≤
      (if a.low.sign < 0 then max a.low (-limit) else .finite 0) := by
  split
  · rename_i hneg'
    split
    · exact max_le_max hlow (Bound.neg_le_neg hlimit)
    · -- only the larger dividend may be negative, and its lower end is not above zero
      exact max_le (Bound.sign_nonpos_iff.mp hneg'.le) (Bound.neg_le_neg hpos)
  · rename_i hneg'
    rw [if_neg fun hneg => hneg' (Bound.sign_neg_of_le hlow hneg)]

/-- The upper end of a remainder. -/
private theorem remainder_high_le {limit limit' : Bound} (hhigh : a.high ≤ a'.high)
    (hlimit : limit ≤ limit') (hpos : .finite 0 ≤ limit') :
    (if 0 < a.high.sign then min a.high limit else .finite 0) ≤
      (if 0 < a'.high.sign then min a'.high limit' else .finite 0) := by
  split
  · rename_i hpos'
    rw [if_pos (Bound.sign_pos_of_le hhigh hpos')]
    exact min_le_min hhigh hlimit
  · split
    · rename_i hpos'
      exact le_min (Bound.sign_nonneg_iff.mp hpos'.le) hpos
    · exact Bound.le_refl _

/-- A divisor with a member other than zero leaves room for a remainder. -/
theorem zero_le_remainderLimit (hparts : b.nonzeroParts.isEmpty = false) :
    .finite 0 ≤ b.remainderLimit := by
  obtain ⟨part, hpart⟩ := List.isEmpty_eq_false_iff_exists_mem.mp hparts
  obtain ⟨hne, hle, -⟩ := of_mem_nonzeroParts hpart
  obtain ⟨hlow, hhigh⟩ := ends_mem_Icc hle hne
  -- the part has an end of magnitude at least one
  have hone : .finite 1 ≤ max b.low.abs b.high.abs := by
    rcases side_of_mem_nonzeroParts hpart with hneg | hpos
    · have h := Bound.neg_le_neg hneg
      simp only [Bound.neg_finite, Int.neg_neg] at h
      exact h.trans ((Bound.neg_le_abs _).trans (Bound.abs_le_max_abs hhigh.1 hhigh.2))
    · exact hpos.trans ((Bound.le_abs_self _).trans (Bound.abs_le_max_abs hlow.1 hlow.2))
  unfold remainderLimit
  split
  · rename_i m hm
    rw [hm] at hone
    have := Bound.finite_le_finite.mp hone
    exact Bound.finite_le_finite.mpr (by omega)
  · exact (Bound.finite_le_finite.mpr (by decide)).trans hone

/-- Remainders of larger intervals are larger. -/
theorem tmod_le_tmod (ha : a ≤ a') (hb : b ≤ b') : a.tmod b ≤ a'.tmod b' := by
  apply guard_le_guard (isEmpty_of_le ha)
  intro hane
  apply guard_le_guard
  · -- a divisor without parts lies around divisors without parts only
    contrapose!
    simp only [ne_eq, Bool.not_eq_true]
    intro hparts
    obtain ⟨part, hpart⟩ := List.isEmpty_eq_false_iff_exists_mem.mp hparts
    obtain ⟨part', hpart', -⟩ := exists_part_of_le hb hpart
    exact List.isEmpty_eq_false_iff_exists_mem.mpr ⟨part', hpart'⟩
  · intro hparts
    obtain ⟨part, hpart⟩ := List.isEmpty_eq_false_iff_exists_mem.mp hparts
    obtain ⟨part', hpart', -⟩ := exists_part_of_le hb hpart
    -- so the larger divisor has a part as well, and both ends can be compared
    have hparts' : b'.nonzeroParts.isEmpty = false :=
      List.isEmpty_eq_false_iff_exists_mem.mpr ⟨part', hpart'⟩
    obtain ⟨hne, hle, -⟩ := of_mem_nonzeroParts hpart
    have hbne := isEmpty_eq_false_of_le hle hne
    obtain ⟨hlow, hhigh⟩ := (le_iff_of_nonempty hane).mp ha
    have hlimit := remainderLimit_le hb hbne
    have hpos := zero_le_remainderLimit hparts'
    exact between_le_between (remainder_low_le hlow hlimit hpos)
      (remainder_high_le hhigh hlimit hpos)

/-! ## §4 Solving for a factor -/

/-- Solving for a factor over a larger interval allows more. -/
theorem divExact_le_divExact {k : Int} (hk : k ≠ 0) (ha : a ≤ a') :
    a.divExact k ≤ a'.divExact k := by
  apply guard_le_guard (isEmpty_of_le ha)
  intro hane
  obtain ⟨hlow, hhigh⟩ := (le_iff_of_nonempty hane).mp ha
  by_cases hpos : 0 < k
  · rw [if_pos hpos, if_pos hpos]
    exact between_le_between (Bound.ceilDiv_le_ceilDiv hpos hlow)
      (Bound.floorDiv_le_floorDiv hpos hhigh)
  · -- a negative divisor exchanges the ends before they are rounded
    have hneg : k < 0 := by omega
    rw [if_neg hpos, if_neg hpos]
    exact between_le_between (Bound.ceilDiv_le_ceilDiv_of_neg hneg hhigh)
      (Bound.floorDiv_le_floorDiv_of_neg hneg hlow)

end Interval

end RangeGuard
