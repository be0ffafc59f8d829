/-!
# Arithmetic expressions

Integer expressions over named variables, with truncating division and remainder. An expression has
a value in a `Store` unless some divisor in it is zero there, so `Arith.eval?` answers with an
option.

The variables of an expression are listed in the order of their first occurrence (`Arith.vars`); a
variable outside the scope of an analysis is reported by the first of them.
-/

namespace RangeGuard

/-- An assignment of integers to all variable names. -/
abbrev Store := String → Int

/-- The store that differs from `σ` in the value of `x` only. -/
def Store.set (σ : Store) (x : String) (n : Int) : Store :=
  fun y => if y = x then n else σ y

/-- An integer expression. -/
inductive Arith where
  /-- A variable. -/
  | var (name : String)
  /-- An integer constant. -/
  | const (value : Int)
  /-- A sum. -/
  | add (a b : Arith)
  /-- A difference. -/
  | sub (a b : Arith)
  /-- A product. -/
  | mul (a b : Arith)
  /-- A quotient, rounded toward zero. -/
  | div (a b : Arith)
  /-- The remainder of the truncating quotient; it has the sign of the dividend. -/
  | rem (a b : Arith)
  /-- An additive inverse. -/
  | neg (a : Arith)
deriving DecidableEq, Inhabited

namespace Arith

/-! ## Meaning -/

/-- The value in the store `σ`; there is none if a divisor is zero. -/
def eval? (σ : Store) : Arith → Option Int
  | var x => some (σ x)
  | const n => some n
  | add a b => return (← eval? σ a) + (← eval? σ b)
  | sub a b => return (← eval? σ a) - (← eval? σ b)
  | mul a b => return (← eval? σ a) * (← eval? σ b)
  | div a b => do
    let m ← eval? σ a
    let n ← eval? σ b
    if n = 0 then none else some (m.tdiv n)
  | rem a b => do
    let m ← eval? σ a
    let n ← eval? σ b
    if n = 0 then none else some (m.tmod n)
  | neg a => return -(← eval? σ a)

/-! ## Variables -/

/-- The variables of the expression from left to right, repetitions included. -/
def occurrences : Arith → List String
  | var x => [x]
  | const _ => []
  | add a b | sub a b | mul a b | div a b | rem a b => a.occurrences ++ b.occurrences
  | neg a => a.occurrences

/-- The variables of the expression, each once, in order of first occurrence. -/
def vars (e : Arith) : List String :=
  e.occurrences.foldl (fun seen x => if x ∈ seen then seen else seen ++ [x]) []

/-! ## Written form -/

/-- The written form: every binary operation stands in parentheses. -/
def text : Arith → String
  | var x => x
  | const n => toString n
  | add a b => "(" ++ a.text ++ " + " ++ b.text ++ ")"
  | sub a b => "(" ++ a.text ++ " - " ++ b.text ++ ")"
  | mul a b => "(" ++ a.text ++ " * " ++ b.text ++ ")"
  | div a b => "(" ++ a.text ++ " / " ++ b.text ++ ")"
  | rem a b => "(" ++ a.text ++ " % " ++ b.text ++ ")"
  | neg a => "-" ++ a.text

instance : ToString Arith := ⟨text⟩

end Arith

end RangeGuard
