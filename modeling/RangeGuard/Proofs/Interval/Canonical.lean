import RangeGuard.Proofs.Interval.Monotone

/-!
# Operations on intervals stay canonical

A canonical interval is the empty one in its one form, or an interval with a member. Every operation
takes canonical intervals to canonical ones, so that the analysis, which starts from canonical
intervals, never leaves them.

Two arguments occur. An operation that only makes intervals larger, or that is exact on members,
keeps a witness: if the arguments have members then so does the result, and a result with a member
is canonical. Joins, widenings and all arithmetic go this way, by the enclosure of results. An
operation that cuts intervals down has no witness to keep. For the common part and for solving for a
factor the ends are followed instead, and shown to stay on the right side of the infinities
(`canonical_between`).
-/

namespace RangeGuard

namespace Interval

variable {a b : Interval}

/-! ## §1 Ends -/

/-- Ends on the right side of the infinities give a canonical interval: ends in the wrong order are
replaced by the one empty form. -/
theorem canonical_between {low high : Bound} (hlow : low ≠ .posInf) (hhigh : high ≠ .negInf) :
    (between low high).Canonical := by
  unfold between
  split
  · exact .inl rfl
  · rename_i hlt
    exact .inr ⟨not_lt.mp hlt, hlow, hhigh⟩

theorem canonical_empty : empty.Canonical := .inl rfl

theorem canonical_full : full.Canonical := canonical_of_mem (mem_full (n := 0))

theorem canonical_point (n : Int) : (point n).Canonical := canonical_of_mem (mem_point.mpr rfl)

namespace Canonical

/-- The ends of a canonical interval that is not empty are on the right side of the infinities. -/
theorem ends (ha : a.Canonical) (hne : a.isEmpty = false) :
    a.low ≠ .posInf ∧ a.high ≠ .negInf := by
  obtain rfl | ⟨-, hends⟩ := ha
  · cases hne
  · exact hends

/-! ## §2 Join, meet and widening -/

/-- A join with the empty interval is the other argument, and any other join keeps a member. -/
theorem join (ha : a.Canonical) (hb : b.Canonical) : (a.join b).Canonical := by
  rcases canonical_iff.mp ha with rfl | ⟨n, hn⟩
  · exact hb
  · exact canonical_of_mem (mem_join_left hn)

/-- A widening keeps the members of its left argument. -/
theorem widen (ha : a.Canonical) (hb : b.Canonical) : (a.widen b).Canonical := by
  rcases canonical_iff.mp ha with rfl | ⟨n, hn⟩
  · exact hb
  · exact canonical_of_mem (mem_widen_left hn)

/-- The ends of a common part are ends of its arguments. -/
theorem meet (ha : a.Canonical) (hb : b.Canonical) : (a.meet b).Canonical := by
  by_cases hcross : min a.high b.high < max a.low b.low
  · rw [Interval.meet, between, if_pos hcross]
    exact canonical_empty
  · -- the ends of the common part are in order, so neither interval is empty
    have hends := not_lt.mp hcross
    rw [max_le_iff, le_min_iff, le_min_iff] at hends
    obtain ⟨halow, hahigh⟩ := ha.ends (isEmpty_eq_false_iff.mpr hends.1.1)
    obtain ⟨hblow, hbhigh⟩ := hb.ends (isEmpty_eq_false_iff.mpr hends.2.2)
    apply canonical_between
    · rcases max_choice a.low b.low with h | h <;> rw [h] <;> assumption
    · rcases min_choice a.high b.high with h | h <;> rw [h] <;> assumption

/-! ## §3 Arithmetic -/

/-- An operation that is empty where one of its arguments is and has a member where both have one.
-/
theorem binary {f : Interval → Interval → Interval} (ha : a.Canonical) (hb : b.Canonical)
    (hmem : ∀ x ∈ a, ∀ y ∈ b, ∃ n, n ∈ if a.isEmpty || b.isEmpty then empty else f a b) :
    (if a.isEmpty || b.isEmpty then empty else f a b).Canonical := by
  by_cases hempty : (a.isEmpty || b.isEmpty) = true
  · rw [if_pos hempty]
    exact canonical_empty
  · simp only [Bool.or_eq_true, not_or, Bool.not_eq_true] at hempty
    obtain ⟨x, hx⟩ := exists_mem_of_canonical ha hempty.1
    obtain ⟨y, hy⟩ := exists_mem_of_canonical hb hempty.2
    obtain ⟨n, hn⟩ := hmem x hx y hy
    exact canonical_of_mem hn

/-- Sums of members are members of the sum. -/
theorem add (ha : a.Canonical) (hb : b.Canonical) : (a + b).Canonical :=
  binary (f := fun a b => between (a.low + b.low) (a.high + b.high)) ha hb
    fun x hx y hy => ⟨x + y, mem_add hx hy⟩

theorem sub (ha : a.Canonical) (hb : b.Canonical) : (a - b).Canonical :=
  binary (f := fun a b => between (a.low - b.high) (a.high - b.low)) ha hb
    fun x hx y hy => ⟨x - y, mem_sub hx hy⟩

theorem mul (ha : a.Canonical) (hb : b.Canonical) : (a * b).Canonical :=
  binary (f := fun a b => hull (a.low * b.low) (a.low * b.high) (a.high * b.low) (a.high * b.high))
    ha hb fun x hx y hy => ⟨x * y, mem_mul hx hy⟩

theorem neg (ha : a.Canonical) : (-a).Canonical := by
  rcases canonical_iff.mp ha with rfl | ⟨x, hx⟩
  · exact canonical_empty
  · exact canonical_of_mem (mem_neg hx)

/-- A divisor with a part has a member other than zero. -/
theorem exists_mem_ne_zero (hb : b.Canonical) {part : Interval} (h : part ∈ b.nonzeroParts) :
    ∃ y ∈ b, y ≠ 0 := by
  obtain ⟨hne, -, hpart⟩ := of_mem_nonzeroParts h
  -- either part is a common part with one side of zero, and a nonempty one has a member
  rcases hpart with rfl | rfl
  · obtain ⟨y, hy⟩ := exists_mem_of_canonical
      (hb.meet (canonical_between (by decide) (by decide))) hne
    obtain ⟨hyb, hneg⟩ := mem_negativePart.mp hy
    exact ⟨y, hyb, hneg.ne⟩
  · obtain ⟨y, hy⟩ := exists_mem_of_canonical
      (hb.meet (canonical_between (by decide) (by decide))) hne
    obtain ⟨hyb, hpos⟩ := mem_positivePart.mp hy
    exact ⟨y, hyb, hpos.ne'⟩

/-- A quotient has a member if some divisor is not zero, and is empty otherwise. -/
theorem tdiv (ha : a.Canonical) (hb : b.Canonical) : (a.tdiv b).Canonical := by
  rcases canonical_iff.mp ha with rfl | ⟨x, hx⟩
  · exact canonical_empty
  · cases hparts : b.nonzeroParts with
    | nil =>
      -- zero is the only divisor, so that there is nothing to join
      rw [Interval.tdiv, isEmpty_eq_false_of_mem hx, hparts]
      exact canonical_empty
    | cons part rest =>
      obtain ⟨y, hy, hne⟩ := hb.exists_mem_ne_zero (hparts ▸ List.mem_cons_self)
      exact canonical_of_mem (mem_tdiv hx hy hne)

/-- A remainder has a member if some divisor is not zero, and is empty otherwise. -/
theorem tmod (ha : a.Canonical) (hb : b.Canonical) : (a.tmod b).Canonical := by
  rcases canonical_iff.mp ha with rfl | ⟨x, hx⟩
  · exact canonical_empty
  · cases hparts : b.nonzeroParts with
    | nil =>
      -- no part of the divisor: the guard gives the empty interval
      rw [Interval.tmod, isEmpty_eq_false_of_mem hx, hparts]
      exact canonical_empty
    | cons part rest =>
      obtain ⟨y, hy, hne⟩ := hb.exists_mem_ne_zero (hparts ▸ List.mem_cons_self)
      exact canonical_of_mem (mem_tmod hx hy hne)

/-! ## §4 Solving for a factor -/

/-- Rounding a quotient keeps integers apart from the infinities, which a negative divisor
exchanges. -/
theorem divExact (ha : a.Canonical) {k : Int} (hk : k ≠ 0) : (a.divExact k).Canonical := by
  unfold Interval.divExact
  split
  · exact canonical_empty
  rename_i hne
  -- the ends are not the wrong infinities, and rounding would have to produce one
  obtain ⟨hlow, hhigh⟩ := ha.ends (by simpa using hne)
  obtain ⟨low, high⟩ := a
  split
  · rename_i hpos
    apply canonical_between
    · cases low <;> simp_all [Bound.ceilDiv, not_lt_of_gt hpos]
    · cases high <;> simp_all [Bound.floorDiv, not_lt_of_gt hpos]
  · rename_i hpos
    -- a negative divisor takes the upper end to the lower one
    have hneg : k < 0 := by omega
    apply canonical_between
    · cases high <;> simp_all [Bound.ceilDiv]
    · cases low <;> simp_all [Bound.floorDiv]

end Canonical

end Interval

end RangeGuard
