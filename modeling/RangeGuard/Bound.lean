/-!
# Extended integers

The ends of integer intervals: every integer together with a least element `-∞` and a greatest
element `+∞`, under a decidable total order.

## Arithmetic at infinity

Arithmetic on `Bound` is total. Where a sum or a quotient of infinities has no limit, the value
chosen is one that never makes the interval built from it miss a member. `Bound.add` sends two
opposite infinities to `+∞`, `Bound.mul` sends zero times an infinity to zero, and `Bound.tdiv`
sends everything over an infinity to zero. Which ends these choices meet in interval arithmetic, and
why they do no harm there, is the matter of `RangeGuard.Proofs.Interval`.
-/

namespace RangeGuard

/-- An end of an integer interval. -/
inductive Bound where
  /-- Below every integer. -/
  | negInf
  /-- An integer. -/
  | finite (value : Int)
  /-- Above every integer. -/
  | posInf
deriving DecidableEq, Inhabited

namespace Bound

/-! ## Order -/

/-- The order of the integers, with `-∞` below and `+∞` above all of them. -/
protected def le : Bound → Bound → Prop
  | negInf, _ => True
  | finite _, negInf => False
  | finite a, finite b => a ≤ b
  | finite _, posInf => True
  | posInf, negInf => False
  | posInf, finite _ => False
  | posInf, posInf => True

instance : LE Bound := ⟨Bound.le⟩

instance : LT Bound := ⟨fun a b => ¬ b ≤ a⟩

instance decidableLe : (a b : Bound) → Decidable (a ≤ b)
  | negInf, _ => .isTrue trivial
  | finite _, negInf => .isFalse id
  | finite a, finite b => inferInstanceAs (Decidable (a ≤ b))
  | finite _, posInf => .isTrue trivial
  | posInf, negInf => .isFalse id
  | posInf, finite _ => .isFalse id
  | posInf, posInf => .isTrue trivial

instance decidableLt (a b : Bound) : Decidable (a < b) :=
  inferInstanceAs (Decidable (¬ b ≤ a))

instance : Min Bound := minOfLe

instance : Max Bound := maxOfLe

instance : Ord Bound := ⟨fun a b => compareOfLessAndEq a b⟩

@[simp] theorem negInf_le (a : Bound) : negInf ≤ a := trivial

@[simp] theorem le_posInf (a : Bound) : a ≤ posInf := by cases a <;> trivial

@[simp] theorem finite_le_finite {a b : Int} : finite a ≤ finite b ↔ a ≤ b := Iff.rfl

@[simp] theorem not_finite_le_negInf (a : Int) : ¬ finite a ≤ negInf := id

@[simp] theorem not_posInf_le_negInf : ¬ posInf ≤ negInf := id

@[simp] theorem not_posInf_le_finite (a : Int) : ¬ posInf ≤ finite a := id

/-- The strict order is the failure of the converse, by definition. -/
theorem not_le {a b : Bound} : ¬ a ≤ b ↔ b < a := Iff.rfl

@[simp] theorem finite_lt_finite {a b : Int} : finite a < finite b ↔ a < b :=
  Int.not_le

theorem le_refl (a : Bound) : a ≤ a := by
  cases a with
  | negInf => trivial
  | finite n => exact Int.le_refl n
  | posInf => trivial

/-- Transitivity, by cases on the three bounds; only three integers leave something to show. -/
theorem le_trans {a b c : Bound} (hab : a ≤ b) (hbc : b ≤ c) : a ≤ c := by
  cases a <;> cases b <;> cases c <;> simp_all
  exact Int.le_trans hab hbc

/-- Two bounds that lie below each other are the same. -/
theorem le_antisymm {a b : Bound} (hab : a ≤ b) (hba : b ≤ a) : a = b := by
  cases a <;> cases b <;> simp_all
  exact Int.le_antisymm hab hba

/-- Any two bounds are comparable. -/
theorem le_total (a b : Bound) : a ≤ b ∨ b ≤ a := by
  cases a <;> cases b <;> simp
  exact Int.le_total _ _

/-! ## Sign -/

/-- The integer value, if there is one. -/
def finite? : Bound → Option Int
  | finite n => some n
  | _ => none

/-- The sign: `-1`, `0` or `1`. -/
def sign : Bound → Int
  | negInf => -1
  | finite n => n.sign
  | posInf => 1

/-- The infinity of a given sign; a zero sign gives zero. -/
def infinity (s : Int) : Bound :=
  if s < 0 then negInf else if s = 0 then finite 0 else posInf

/-! ## Arithmetic -/

/-- The sum. Two opposite infinities have no limit; they add to `+∞`. -/
protected def add : Bound → Bound → Bound
  | finite a, finite b => finite (a + b)
  | negInf, posInf => posInf
  | posInf, negInf => posInf
  | negInf, _ => negInf
  | _, negInf => negInf
  | _, _ => posInf

instance : Add Bound := ⟨Bound.add⟩

/-- The additive inverse; it exchanges the infinities. -/
protected def neg : Bound → Bound
  | negInf => posInf
  | finite n => finite (-n)
  | posInf => negInf

instance : Neg Bound := ⟨Bound.neg⟩

/-- The difference: the sum with the inverse. -/
protected def sub (a b : Bound) : Bound := a + -b

instance : Sub Bound := ⟨Bound.sub⟩

/-- The product. Zero times an infinity is zero, because an interval that ends at an infinity holds
integers only and each of them gives zero. -/
protected def mul : Bound → Bound → Bound
  | finite a, finite b => finite (a * b)
  | a, b => infinity (a.sign * b.sign)

instance : Mul Bound := ⟨Bound.mul⟩

/-- The quotient rounded toward zero, for a divisor other than zero. Anything divided by an infinity
is zero: a finite dividend tends to it, and of two infinite ends the other corners dominate. -/
def tdiv : Bound → Bound → Bound
  | finite a, finite b => finite (a.tdiv b)
  | _, negInf => finite 0
  | _, posInf => finite 0
  | a, b => infinity (a.sign * b.sign)

/-- The quotient by a nonzero integer, rounded down. A negative divisor exchanges the infinities. -/
def floorDiv (a : Bound) (k : Int) : Bound :=
  match a with
  | finite n => finite (n.fdiv k)
  | infinite => if k < 0 then -infinite else infinite

/-- The quotient by a nonzero integer, rounded up. A negative divisor exchanges the infinities. -/
def ceilDiv (a : Bound) (k : Int) : Bound :=
  match a with
  | finite n => finite (-((-n).fdiv k))
  | infinite => if k < 0 then -infinite else infinite

/-- The absolute value. -/
def abs (a : Bound) : Bound := if a.sign < 0 then -a else a

/-! ## Written form -/

/-- The written form: a decimal numeral, or the infinity sign with its own sign before it. -/
def text : Bound → String
  | negInf => "-∞"
  | finite n => toString n
  | posInf => "+∞"

instance : ToString Bound := ⟨text⟩

end Bound

end RangeGuard
