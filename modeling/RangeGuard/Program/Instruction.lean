import RangeGuard.Program.Ty

/-!
# Instructions

Three-address instructions: the operands of arithmetic and of comparisons are constants or locals,
never nested expressions. Each local carries its declared type, so an instruction can be interpreted
without a table of declarations.

The syntax is built up in layers: operands and operators, calls, the left and right sides of
assignments, and instructions. The two checks look at parts of an instruction only, namely at the
call that it makes (`Instruction.call?`) and at its divisors (`Instruction.divisors`).
-/

namespace RangeGuard

/-! ## Operands -/

/-- A local variable with its declared type; parameters are locals too. -/
structure Local where
  /-- The name. -/
  name : String
  /-- The declared type. -/
  ty : Ty
deriving DecidableEq, Inhabited

/-- A constant or a local. -/
inductive Operand where
  /-- An integer constant. -/
  | const (value : Int)
  /-- A local. -/
  | var (source : Local)
deriving DecidableEq, Inhabited

/-- The written form of an operand. -/
def Operand.text : Operand → String
  | const n => toString n
  | var v => v.name

/-! ## Operators -/

/-- A binary operator. -/
inductive BinOp where
  | add | sub | mul
  /-- The quotient rounded toward zero. -/
  | div
  /-- The remainder of the truncating quotient. -/
  | rem
deriving DecidableEq, Inhabited

namespace BinOp

/-- The operator has no result if its right operand is zero. -/
def isDivision : BinOp → Bool
  | div => true
  | rem => true
  | _ => false

/-- The sign of the operator. -/
def symbol : BinOp → String
  | add => "+"
  | sub => "-"
  | mul => "*"
  | div => "/"
  | rem => "%"

/-- The operator with a given sign. -/
def ofSymbol? : String → Option BinOp
  | "+" => some add
  | "-" => some sub
  | "*" => some mul
  | "/" => some div
  | "%" => some rem
  | _ => none

/-- The result of the operator; there is none for a zero divisor. -/
def result? : BinOp → Int → Int → Option Int
  | add, a, b => some (a + b)
  | sub, a, b => some (a - b)
  | mul, a, b => some (a * b)
  | div, a, b => if b = 0 then none else some (a.tdiv b)
  | rem, a, b => if b = 0 then none else some (a.tmod b)

end BinOp

/-- A comparison of two integers. -/
inductive Comparator where
  | eq | ne | lt | le | gt | ge
deriving DecidableEq, Inhabited

namespace Comparator

/-- The sign of the comparison. -/
def symbol : Comparator → String
  | eq => "=="
  | ne => "!="
  | lt => "<"
  | le => "<="
  | gt => ">"
  | ge => ">="

/-- The comparison with a given sign. -/
def ofSymbol? : String → Option Comparator
  | "==" => some eq
  | "!=" => some ne
  | "<" => some lt
  | "<=" => some le
  | ">" => some gt
  | ">=" => some ge
  | _ => none

/-- The comparison holds. -/
def Holds : Comparator → Int → Int → Prop
  | eq, a, b => a = b
  | ne, a, b => a ≠ b
  | lt, a, b => a < b
  | le, a, b => a ≤ b
  | gt, a, b => b < a
  | ge, a, b => b ≤ a

instance decidableHolds : (c : Comparator) → (a b : Int) → Decidable (c.Holds a b)
  | eq, a, b => inferInstanceAs (Decidable (a = b))
  | ne, a, b => inferInstanceAs (Decidable (a ≠ b))
  | lt, a, b => inferInstanceAs (Decidable (a < b))
  | le, a, b => inferInstanceAs (Decidable (a ≤ b))
  | gt, a, b => inferInstanceAs (Decidable (b < a))
  | ge, a, b => inferInstanceAs (Decidable (b ≤ a))

end Comparator

/-! ## Calls -/

/-- What a call is dispatched on. -/
inductive CallKind where
  /-- Allocates an object and initialises the receiver with it. -/
  | constructor
  /-- A method of the receiver. -/
  | virtual
  /-- A method without a receiver. -/
  | static
deriving DecidableEq, Inhabited

/-- A call. -/
structure Call where
  /-- What the call is dispatched on. -/
  kind : CallKind
  /-- The receiving object; for a constructor, the local that is initialised. -/
  receiver : Option Local
  /-- The class, if it is known. -/
  className : Option String
  /-- The method. -/
  method : String
  /-- The arguments. -/
  args : List Operand
deriving DecidableEq, Inhabited

/-- The written form of a call. -/
def Call.text (c : Call) : String :=
  let args := "(" ++ ", ".intercalate (c.args.map Operand.text) ++ ")"
  match c.kind, c.receiver, c.className with
  | .constructor, _, some className => "new " ++ className ++ args
  | _, some receiver, _ => receiver.name ++ "." ++ c.method ++ args
  | _, none, _ => c.method ++ args

/-! ## Assignments -/

/-- The left side of an assignment. -/
inductive Place where
  /-- A local. -/
  | var (target : Local)
  /-- A field of an object, or a field of the class if there is no object. -/
  | field (base : Option Local) (name : String)
  /-- An element of an array. -/
  | element (base : Local) (index : Operand)
deriving DecidableEq, Inhabited

/-- The written form of a place. -/
def Place.text : Place → String
  | .var v => v.name
  | .field (some base) name => base.name ++ "." ++ name
  | .field none name => name
  | .element base index => base.name ++ "[" ++ index.text ++ "]"

/-- The right side of an assignment. -/
inductive Rhs where
  /-- An integer constant. -/
  | const (value : Int)
  /-- The value of a local. -/
  | ref (source : Local)
  /-- The result of an operator. -/
  | binary (op : BinOp) (left right : Operand)
  /-- The result of a call. -/
  | call (c : Call)
  /-- Anything else, such as a read of a field or of an array element; only its text is kept. -/
  | unmodeled (description : String)
deriving DecidableEq, Inhabited

/-- The written form of a right side. -/
def Rhs.text : Rhs → String
  | const n => toString n
  | ref v => v.name
  | binary op left right => left.text ++ " " ++ op.symbol ++ " " ++ right.text
  | call c => c.text
  | unmodeled description => description

/-! ## Instructions -/

/-- The effect of one statement. -/
inductive Instruction where
  /-- Stores the right side in a place. -/
  | assign (target : Place) (value : Rhs)
  /-- Jumps if the comparison holds. -/
  | branch (comparator : Comparator) (left right : Operand)
  /-- A call whose result is not used. -/
  | call (c : Call)
  /-- No effect. -/
  | nop
  /-- Jumps always. -/
  | goto
  /-- Ends the procedure. -/
  | ret
deriving DecidableEq, Inhabited

namespace Instruction

/-- The call that the instruction makes, as a statement or as the right side of an assignment. -/
def call? : Instruction → Option Call
  | call c => some c
  | assign _ (.call c) => some c
  | _ => none

/-- The right operands of the divisions and remainders in the instruction. -/
def divisors : Instruction → List Operand
  | assign _ (.binary op _ right) => if op.isDivision then [right] else []
  | _ => []

/-- The written form. Jump targets are not part of it. -/
def text : Instruction → String
  | assign target value => target.text ++ " = " ++ value.text
  | branch comparator left right =>
    "if " ++ left.text ++ " " ++ comparator.symbol ++ " " ++ right.text
  | call c => c.text
  | nop => "nop"
  | goto => "goto"
  | ret => "return"

end Instruction

end RangeGuard
