import RangeGuard.Interval.Basic

/-!
# Interval arithmetic

Each operation encloses every result of the integer operation on members of its arguments. Sums act
on the ends, products and quotients take the smallest interval around the four corners.

Division and remainder are the truncating ones. A zero divisor stops the computation that would use
it, so it contributes no result: `Interval.tdiv` and `Interval.tmod` work on the nonzero parts of
the divisor, and dividing by `[0, 0]` gives the empty interval. `Interval.divExact` goes the other
way and gives the integers that a factor takes into an interval, which is how a linear form is
solved for one of its variables.
-/

namespace RangeGuard

namespace Interval

/-! ## Sums and products -/

/-- All sums of a member of `a` and a member of `b`. -/
protected def add (a b : Interval) : Interval :=
  if a.isEmpty || b.isEmpty then empty
  else between (a.low + b.low) (a.high + b.high)

instance : Add Interval := ⟨Interval.add⟩

/-- All differences of a member of `a` and a member of `b`. -/
protected def sub (a b : Interval) : Interval :=
  if a.isEmpty || b.isEmpty then empty
  else between (a.low - b.high) (a.high - b.low)

instance : Sub Interval := ⟨Interval.sub⟩

/-- All inverses of members of `a`. -/
protected def neg (a : Interval) : Interval :=
  if a.isEmpty then empty else between (-a.high) (-a.low)

instance : Neg Interval := ⟨Interval.neg⟩

/-- The interval from the least to the greatest of four ends. -/
def hull (p q r s : Bound) : Interval :=
  between (min (min (min p q) r) s) (max (max (max p q) r) s)

/-- All products of a member of `a` and a member of `b`: the hull of the products of their ends. -/
protected def mul (a b : Interval) : Interval :=
  if a.isEmpty || b.isEmpty then empty
  else hull (a.low * b.low) (a.low * b.high) (a.high * b.low) (a.high * b.high)

instance : Mul Interval := ⟨Interval.mul⟩

/-! ## Quotients and remainders -/

/-- The negative members. -/
def negativePart (i : Interval) : Interval := i.meet (between .negInf (.finite (-1)))

/-- The positive members. -/
def positivePart (i : Interval) : Interval := i.meet (between (.finite 1) .posInf)

/-- The negative part and the positive part, as far as they have members. -/
def nonzeroParts (i : Interval) : List Interval :=
  [i.negativePart, i.positivePart].filter fun part => !part.isEmpty

/-- All quotients by the members of a divisor whose ends have one sign. -/
def quotientHull (a part : Interval) : Interval :=
  hull (a.low.tdiv part.low) (a.low.tdiv part.high) (a.high.tdiv part.low) (a.high.tdiv part.high)

/-- All quotients, rounded toward zero, of a member of `a` by a nonzero member of `b`. -/
def tdiv (a b : Interval) : Interval :=
  if a.isEmpty then empty
  -- within one sign quotients are monotone in the divisor, across zero they are not
  else b.nonzeroParts.foldl (fun acc part => acc.join (a.quotientHull part)) empty

/-- The largest magnitude that a remainder can have: one less than the largest divisor's. -/
def remainderLimit (b : Interval) : Bound :=
  match max b.low.abs b.high.abs with
  | .finite m => .finite (m - 1)
  | infinite => infinite

/-- An interval around all remainders of a member of `a` by a nonzero member of `b`. A remainder has
the sign of the dividend, is no larger than it in magnitude, and stays below the divisor. -/
def tmod (a b : Interval) : Interval :=
  if a.isEmpty then empty
  else if b.nonzeroParts.isEmpty then empty
  else
    between
      (if a.low.sign < 0 then max a.low (-b.remainderLimit) else .finite 0)
      (if 0 < a.high.sign then min a.high b.remainderLimit else .finite 0)

/-! ## Solving for a factor -/

/-- The integers `x` with `k * x` in `i`, for a factor `k` other than zero. -/
def divExact (i : Interval) (k : Int) : Interval :=
  if i.isEmpty then empty
  else if 0 < k then between (i.low.ceilDiv k) (i.high.floorDiv k)
  -- a negative factor exchanges the ends
  else between (i.high.ceilDiv k) (i.low.floorDiv k)

end Interval

end RangeGuard
