import RangeGuard.Bound

/-!
# Integer intervals

An interval `[low, high]` denotes the integers between its ends. Intervals are plain pairs of ends:
any pair with `low` above `high` denotes the empty set, and `[+∞, -∞]` is its canonical form. The
operations below answer for every pair; `Interval.Canonical` singles out the pairs that denote a set
in exactly one way, and `Interval.between` makes them.

## Sets and ends

Membership (`n ∈ i`) is about the set, inclusion (`a ≤ b`) is decided on the ends. The two agree on
canonical intervals. `Interval.join` and `Interval.meet` are the lattice operations;
`Interval.widen` is the join in which an end that moves goes straight to infinity.
-/

namespace RangeGuard

/-- The integers from `low` to `high`, both included. -/
structure Interval where
  /-- The lower end. -/
  low : Bound
  /-- The upper end. -/
  high : Bound
deriving DecidableEq, Inhabited

namespace Interval

/-! ## Membership -/

instance : Membership Int Interval :=
  ⟨fun i n => i.low ≤ .finite n ∧ .finite n ≤ i.high⟩

/-- Membership, written out on the ends. -/
theorem mem_iff {n : Int} {i : Interval} :
    n ∈ i ↔ i.low ≤ .finite n ∧ .finite n ≤ i.high := Iff.rfl

instance decidableMem (n : Int) (i : Interval) : Decidable (n ∈ i) :=
  inferInstanceAs (Decidable (_ ∧ _))

/-! ## Particular intervals -/

/-- All integers. -/
def full : Interval := ⟨.negInf, .posInf⟩

/-- No integer, in canonical form. -/
def empty : Interval := ⟨.posInf, .negInf⟩

/-- One integer. -/
def point (n : Int) : Interval := ⟨.finite n, .finite n⟩

/-- The interval with the given ends; canonically empty if they are in the wrong order. -/
def between (low high : Bound) : Interval :=
  if high < low then empty else ⟨low, high⟩

/-- No integer lies between the ends. -/
def isEmpty (i : Interval) : Bool := decide (i.high < i.low)

/-- Both ends are infinite, so every integer is a member. -/
def isFull (i : Interval) : Bool := decide (i = full)

/-- The only member of an interval whose two ends are the same integer. -/
def constant? (i : Interval) : Option Int :=
  match i.low, i.high with
  | .finite a, .finite b => if a = b then some a else none
  | _, _ => none

/-- An interval that is the only one for its set: canonically empty, or with ends in order, the
lower one below `+∞` and the upper one above `-∞`. -/
def Canonical (i : Interval) : Prop :=
  i = empty ∨ (i.low ≤ i.high ∧ i.low ≠ .posInf ∧ i.high ≠ .negInf)

instance decidableCanonical (i : Interval) : Decidable i.Canonical :=
  inferInstanceAs (Decidable (_ ∨ _))

/-! ## Inclusion -/

/-- Inclusion decided on the ends: an empty interval lies in every other one. -/
protected def le (a b : Interval) : Prop :=
  a.isEmpty = true ∨ (b.isEmpty = false ∧ b.low ≤ a.low ∧ a.high ≤ b.high)

instance : LE Interval := ⟨Interval.le⟩

instance decidableLe (a b : Interval) : Decidable (a ≤ b) :=
  inferInstanceAs (Decidable (_ ∨ _))

/-- How one interval lies to another as a set. -/
inductive Inclusion where
  /-- Strictly inside the other. -/
  | subset
  /-- The same set. -/
  | equal
  /-- Strictly around the other. -/
  | superset
  /-- Neither contains the other. -/
  | incomparable
deriving DecidableEq

/-- How `a` lies to `b`. -/
def inclusion (a b : Interval) : Inclusion :=
  match decide (a ≤ b), decide (b ≤ a) with
  | true, true => .equal
  | true, false => .subset
  | false, true => .superset
  | false, false => .incomparable

/-! ## Lattice operations and widening -/

/-- The smallest interval around both. -/
def join (a b : Interval) : Interval :=
  -- the ends of an empty interval say nothing
  if a.isEmpty then b
  else if b.isEmpty then a
  else ⟨min a.low b.low, max a.high b.high⟩

/-- The common part. -/
def meet (a b : Interval) : Interval :=
  between (max a.low b.low) (min a.high b.high)

/-- An interval around both in which an end of `a` that `b` passes jumps to infinity, so that a
growing sequence of widened intervals moves each end at most once. -/
def widen (a b : Interval) : Interval :=
  if a.isEmpty then b
  else if b.isEmpty then a
  else
    ⟨if b.low < a.low then .negInf else a.low,
     if a.high < b.high then .posInf else a.high⟩

/-! ## Written form -/

/-- The written form, with one sign for every empty interval. -/
def text (i : Interval) : String :=
  if i.isEmpty then "⊥" else s!"[{i.low.text}, {i.high.text}]"

instance : ToString Interval := ⟨text⟩

end Interval

end RangeGuard
