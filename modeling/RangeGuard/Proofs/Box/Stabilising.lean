import Mathlib.Data.Set.Card
import Mathlib.Data.Set.Finite.Lattice
import RangeGuard.Proofs.Box.WellFormed

/-!
# Sequences of widenings

A sequence of boxes is widened step by step, each time by a box that need not have anything to do
with the boxes before it. Every box of the sequence covers the two that it comes from, and the
sequence changes at most once for leaving bottom and once for each end of each variable's interval:
an end that moves goes to infinity, and stays there. So the sequence is stationary from some step
on.

The count is a matter of two facts. A natural number that never increases and decreases with each
event bounds the number of events (§1), and the slack of a box is such a number for the changes
(§3). The second section makes sure that there is something to count: from a well-formed box the
sequence exists for every choice of boxes to widen by.

The example at the end attains the bound for one variable.
-/

namespace RangeGuard

/-! ## §1 Counting events -/

/-- Up to any point, the events have taken one each from a quantity that never increases. -/
theorem card_add_le_of_descent {f : Nat → Nat} {event : Nat → Prop} [DecidablePred event]
    (hle : ∀ i, f (i + 1) ≤ f i) (hlt : ∀ i, event i → f (i + 1) < f i) (n : Nat) :
    ((Finset.range n).filter event).card + f n ≤ f 0 := by
  -- the invariant: the events so far and what is left of the quantity together stay within its
  -- first value
  induction n with
  | zero => simp
  | succ n ih =>
    rw [Finset.range_add_one, Finset.filter_insert]
    split
    · -- the event at `n` is new, and has its own unit
      rename_i hevent
      rw [Finset.card_insert_of_notMem (by simp)]
      have hstep := hlt n hevent
      omega
    · have hstep := hle n
      omega

/-- A quantity that never increases, and decreases with each event, bounds the number of events. -/
theorem encard_le_of_descent {f : Nat → Nat} {event : Nat → Prop}
    (hle : ∀ i, f (i + 1) ≤ f i) (hlt : ∀ i, event i → f (i + 1) < f i) :
    {i | event i}.encard ≤ f 0 := by
  classical
  by_contra hmany
  -- one event more than the bound already happens up to some point
  have hsucc : ((f 0 + 1 : Nat) : ℕ∞) ≤ {i | event i}.encard := by
    push_cast
    exact Order.add_one_le_of_lt (not_le.mp hmany)
  obtain ⟨t, ht, hcard⟩ := Set.exists_subset_encard_eq hsucc
  lift t to Finset Nat using Set.finite_of_encard_eq_coe hcard
  rw [Set.encard_coe_eq_coe_finsetCard, Nat.cast_inj] at hcard
  obtain ⟨n, hn⟩ := t.exists_nat_subset_range
  have hsub : t ⊆ (Finset.range n).filter event := by
    intro i hi
    exact Finset.mem_filter.mpr ⟨hn hi, ht hi⟩
  have hcount := card_add_le_of_descent hle hlt n
  have hle' := Finset.card_le_card hsub
  omega

namespace Box

variable {scope : Scope} {x y : Nat → Box} {x₀ : Box}

/-! ## §2 Widening step by step -/

/-- Each box of the sequence `x` is the one before it, widened by the box of `y` at that place. -/
def WidensBy (scope : Scope) (y x : Nat → Box) : Prop :=
  ∀ i, widen scope (x i) (y i) = .ok (x (i + 1))

/-- The steps at which the sequence changes. -/
def changes (x : Nat → Box) : Set Nat := {i | x (i + 1) ≠ x i}

/-- Well-formed boxes are widened to a well-formed box that covers them. -/
theorem exists_widen {a b : Box} (ha : WellFormed scope a) (hb : WellFormed scope b) :
    ∃ t, widen scope a b = .ok t ∧ WellFormed scope t ∧
      le scope a t = .ok true ∧ le scope b t = .ok true := by
  obtain ⟨t, ht, -⟩ := exists_pointwise Interval.widen ha.proper hb.proper
  exact ⟨t, ht, (preserves_wellFormed scope).widen ha hb ht, le_widen ha.proper hb.proper ht⟩

/-- A well-formed box can be widened by any sequence of well-formed boxes. -/
theorem exists_widensBy (hx₀ : WellFormed scope x₀) (hy : ∀ i, WellFormed scope (y i)) :
    ∃ x, x 0 = x₀ ∧ WidensBy scope y x := by
  have hnext : ∀ i (a : { a // WellFormed scope a }),
      ∃ t : { t // WellFormed scope t }, widen scope a.1 (y i) = .ok t.1 := by
    intro i a
    obtain ⟨t, ht, hwell, -⟩ := exists_widen a.2 (hy i)
    exact ⟨⟨t, hwell⟩, ht⟩
  choose next hnext using hnext
  -- the boxes are carried along with their well-formedness
  let boxes : Nat → { a // WellFormed scope a } := fun i => Nat.rec ⟨x₀, hx₀⟩ next i
  exact ⟨fun i => (boxes i).1, rfl, fun i => hnext i (boxes i)⟩

/-- All boxes of a sequence of widenings are well-formed. -/
private theorem WidensBy.wellFormed (h : WidensBy scope y x) (hx : WellFormed scope (x 0))
    (hy : ∀ i, WellFormed scope (y i)) (i : Nat) : WellFormed scope (x i) := by
  induction i with
  | zero => exact hx
  | succ i ih => exact (preserves_wellFormed scope).widen ih (hy i) (h i)

/-! ## §3 The number of changes -/

/-- No proper box has more slack than bottom. -/
private theorem slack_le {b : Box} (h : Proper scope b) : slack scope b ≤ 2 * scope.size + 1 := by
  by_cases hbottom : b = bottom
  · rw [hbottom, slack]
  · exact (slack_lt_of_ne_bottom h hbottom).le

/-- A sequence of widenings changes at most once for each change that its first box has before it.
-/
theorem WidensBy.encard_changes_le (h : WidensBy scope y x) (hx : WellFormed scope (x 0))
    (hy : ∀ i, WellFormed scope (y i)) : (changes x).encard ≤ slack scope (x 0) := by
  have hstep : ∀ i, x (i + 1) = x i ∨ slack scope (x (i + 1)) < slack scope (x i) := fun i =>
    slack_widen_lt (h.wellFormed hx hy i).proper (hy i).proper (h i)
  apply encard_le_of_descent (f := fun i => slack scope (x i))
  · intro i
    rcases hstep i with hsame | hless
    · rw [hsame]
    · exact hless.le
  · intro i hchange
    exact (hstep i).resolve_left hchange

/-- A sequence with finitely many changes is stationary from some step on. -/
theorem exists_stationary (h : (changes x).Finite) : ∃ k, ∀ i, k ≤ i → x i = x k := by
  -- finitely many changes have a last one
  obtain ⟨last, hlast⟩ := h.bddAbove
  refine ⟨last + 1, fun i hi => ?_⟩
  induction i, hi using Nat.le_induction with
  | base => rfl
  | succ i hi ih =>
    -- a change at `i` would come after the last one
    have hsame : x (i + 1) = x i := by
      by_contra hchange
      have hle : i ≤ last := hlast hchange
      omega
    rw [hsame, ih]

/-- Widening answers on well-formed boxes, with a well-formed box that covers both. Widening a
well-formed box over and over, by well-formed boxes of any kind, changes it at most `2 * n + 1`
times in a scope of `n` names, so from some step on it stays as it is. -/
theorem widen_stabilises (scope : Scope) :
    (∀ a b, WellFormed scope a → WellFormed scope b →
      ∃ t, widen scope a b = .ok t ∧ WellFormed scope t ∧
        le scope a t = .ok true ∧ le scope b t = .ok true) ∧
    ∀ (x₀ : Box) (y : Nat → Box), WellFormed scope x₀ → (∀ i, WellFormed scope (y i)) →
      (∃ x, x 0 = x₀ ∧ WidensBy scope y x) ∧
      ∀ x, x 0 = x₀ → WidensBy scope y x →
        (changes x).encard ≤ 2 * scope.size + 1 ∧ ∃ k, ∀ i, k ≤ i → x i = x k := by
  refine ⟨fun a b ha hb => exists_widen ha hb, fun x₀ y hx₀ hy => ⟨exists_widensBy hx₀ hy, ?_⟩⟩
  intro x hx hwidens
  subst hx
  have hcount : (changes x).encard ≤ (2 * scope.size + 1 : Nat) := by
    apply (hwidens.encard_changes_le hx₀ hy).trans
    exact Nat.cast_le.mpr (slack_le hx₀.proper)
  refine ⟨mod_cast hcount, exists_stationary ?_⟩
  exact (Set.encard_le_coe_iff.mp hcount).1

/-- Boxes of one variable on both sides of each other, then no more. -/
def jumps : Nat → Box
  | 0 => reachable [.point 0]
  | 1 => reachable [⟨.finite 3, .finite 4⟩]
  | 2 => reachable [.point (-1)]
  | _ => bottom

/-- What bottom becomes when it is widened by `jumps`. -/
def grown : Nat → Box
  | 0 => bottom
  | 1 => reachable [.point 0]
  | 2 => reachable [⟨.finite 0, .posInf⟩]
  | _ => reachable [.full]

/-- One variable can change three times, which is the most: out of bottom, and at either end. -/
theorem widen_stabilises_jumps :
    WellFormed (Scope.ofNames ["n"]) (grown 0) ∧ (∀ i, WellFormed (Scope.ofNames ["n"]) (jumps i)) ∧
    WidensBy (Scope.ofNames ["n"]) jumps grown ∧ {0, 1, 2} ⊆ changes grown ∧
    (changes grown).encard ≤ 3 := by
  have hjumps : ∀ i, WellFormed (Scope.ofNames ["n"]) (jumps i) := by
    rintro (_ | _ | _ | i)
    · show _ ∧ _
      decide
    · show _ ∧ _
      decide
    · show _ ∧ _
      decide
    · trivial
  have hgrown : WidensBy (Scope.ofNames ["n"]) jumps grown := by
    rintro (_ | _ | _ | i)
    · decide
    · decide
    · decide
    · rfl
  refine ⟨trivial, hjumps, hgrown, ?_, ?_⟩
  · rintro i (rfl | rfl | rfl)
    · show grown 1 ≠ grown 0
      decide
    · show grown 2 ≠ grown 1
      decide
    · show grown 3 ≠ grown 2
      decide
  · exact (((widen_stabilises (Scope.ofNames ["n"])).2 bottom jumps trivial hjumps).2 grown rfl
      hgrown).1

end Box

end RangeGuard
