/-!
# Integer numerals

Numerals of source text: decimal digits, with a plus or minus sign before them if one is wanted.
Literals have to fit 64 bits with a sign (`Text.literal?`).
-/

namespace RangeGuard

namespace Text

/-- The value of a decimal digit. -/
def digitValue (c : Char) : Nat := c.toNat - '0'.toNat

/-- The value of a list of digits; none if it is empty or holds another character. -/
def natural? (cs : List Char) : Option Nat :=
  if cs.isEmpty then none
  else if cs.all Char.isDigit then some (cs.foldl (fun n c => 10 * n + digitValue c) 0)
  else none

/-- The least literal. -/
def literalMin : Int := -9223372036854775808

/-- The greatest literal. -/
def literalMax : Int := 9223372036854775807

/-- The value of a numeral without a limit. -/
def integer? : List Char → Option Int
  | '-' :: digits => (natural? digits).map fun n => -(n : Int)
  | '+' :: digits => (natural? digits).map fun n => (n : Int)
  | digits => (natural? digits).map fun n => (n : Int)

/-- The value of an integer literal: a numeral that fits 64 bits with a sign. -/
def literal? (s : String) : Option Int :=
  (integer? s.toList).filter fun n => decide (literalMin ≤ n ∧ n ≤ literalMax)

end Text

end RangeGuard
