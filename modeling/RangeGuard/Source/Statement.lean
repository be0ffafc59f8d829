import RangeGuard.Source.Name
import RangeGuard.Text.Numeral

/-!
# Reading statements

Statements stand one on a line:

- `x = a`, `x = a + b` (also `-`, `*`, `/`, `%`), `x = -a`, `x = new T(a, b)`
- `x = r.m(a)`, `x = m(a)`, `x = r.f`, `x = r[i]`, `r.f = a`, `r[i] = a`
- `if a < b goto L` (also `<=`, `>`, `>=`, `==`, `!=`), `goto L`
- `r.m(a)`, `m(a)`, `return`, `return a`, `nop`

Operands are integer literals, truth values, `null` and the names of declared locals.

A statement is told by its words. Where the first word does not decide, an equals sign makes it an
assignment and anything else a call. The result of `Source.statement` is an instruction together
with the label that it jumps to, since labels are resolved only when the whole method has been read.
-/

namespace RangeGuard

namespace Source

/-! ## Operands and calls -/

/-- The declared local of a name. -/
def lookupLocal (locals : List Local) (name : String) : Except Cause Local :=
  match locals.find? fun v => v.name = name with
  | some v => .ok v
  | none => .error (.undeclaredVariable name)

/-- Reads the name of a declared local. -/
def variableNamed (locals : List Local) (s : String) : Except Cause Local := do
  let name ← identifier s
  lookupLocal locals name

/-- Reads an operand. -/
def operand (locals : List Local) (s : String) : Except Cause Operand :=
  -- the three words are constants, also if a local has such a name
  if s = "true" then .ok (.const 1)
  else if s = "false" ∨ s = "null" then .ok (.const 0)
  else match Text.literal? s with
    | some n => .ok (.const n)
    | none => return .var (← variableNamed locals s)

/-- Reads operands with commas between them; there may be none. -/
def arguments (locals : List Local) (s : String) : Except Cause (List Operand) :=
  if Text.trim s = "" then .ok []
  else (Text.splitAll ',' s).mapM fun arg => operand locals (Text.trim arg)

/-- Cuts a call into what is called and the text between the first opening and the last closing
parenthesis. -/
def splitCall (s : String) : Except Cause (String × String) :=
  match (Text.dropSuffix? s ')').bind (Text.splitOnce '(') with
  | some (callee, inner) => .ok (Text.trim callee, inner)
  | none => .error (.malformedCall s)

/-- Reads a call of a method, with a receiver if a dot stands in what is called. -/
def call (locals : List Local) (s : String) : Except Cause Call := do
  let (callee, inner) ← splitCall s
  -- the arguments are read before the receiver is looked up
  let args ← arguments locals inner
  match Text.splitOnce '.' callee with
  | some (receiver, method) =>
    let receiver ← variableNamed locals receiver
    let method ← identifier method
    return ⟨.virtual, some receiver, none, method, args⟩
  | none =>
    let method ← identifier callee
    return ⟨.static, none, none, method, args⟩

/-! ## Assignments -/

/-- The place with an index, if the text has the form of one. -/
def splitElement (s : String) : Option (String × String) :=
  (Text.dropSuffix? s ']').bind (Text.splitOnce '[')

/-- Reads the left side of an assignment. -/
def place (locals : List Local) (s : String) : Except Cause Place :=
  -- a bracket at the end is looked for before a dot
  match splitElement s with
  | some (base, index) => do
    let base ← variableNamed locals (Text.trim base)
    let index ← operand locals (Text.trim index)
    return .element base index
  | none =>
    match Text.splitOnce '.' s with
    | some (base, field) => do
      let base ← variableNamed locals base
      let field ← identifier field
      return .field (some base) field
    | none => return .var (← variableNamed locals s)

/-- The text after a minus sign that is not the sign of a literal. -/
def negated? (s : String) : Option String :=
  (Text.after? "-" s).filter fun rest => (Text.literal? rest).isNone

/-- The text before the first dot or, if there is none, before the first opening bracket. -/
def readBase? (s : String) : Option String :=
  match Text.splitOnce '.' s with
  | some (base, _) => some base
  | none => (Text.splitOnce '[' s).map (·.1)

/-- Reads a right side of one word. A minus sign before an operand subtracts it from zero; of a read
from a field or an array element only the base is looked at. -/
def simpleRhs (locals : List Local) (s : String) : Except Cause Rhs :=
  if s = "null" then .ok (.unmodeled "null")
  else match negated? s with
    | some rest => return .binary .sub (.const 0) (← operand locals rest)
    | none =>
      match readBase? s with
      | some base => do
        -- the base has to be declared; what is read from it is not modelled
        let _ ← variableNamed locals base
        return .unmodeled s
      | none => do
        match ← operand locals s with
        | .const n => return .const n
        | .var v => return .ref v

/-- Reads the right side of an assignment. -/
def rhs (locals : List Local) (s : String) : Except Cause Rhs :=
  if Text.endsWith s ')' then return .call (← call locals s)
  else match Text.words s with
    | [left, symbol, right] =>
      match BinOp.ofSymbol? symbol with
      | none => .error (.unknownOperator symbol)
      | some op => do
        let left ← operand locals left
        let right ← operand locals right
        return .binary op left right
    | [single] => simpleRhs locals single
    | _ => .error (.malformedExpression s)

/-- The name of the method that initialises a new object. -/
def initializer : String := "<init>"

/-- Reads an assignment. A new object can only be assigned to a local. -/
def assignment (locals : List Local) (left right : String) : Except Cause Instruction := do
  -- the left side is read first, and its faults come first
  let target ← place locals left
  match Text.after? "new " right with
  | some constructed =>
    match target with
    | .var receiver =>
      let (className, inner) ← splitCall (Text.trim constructed)
      let className ← typeName className
      let args ← arguments locals inner
      return .call ⟨.constructor, some receiver, some className, initializer, args⟩
    | _ => .error .constructorTarget
  | none => return .assign target (← rhs locals right)

/-! ## Statements -/

/-- Reads a statement: its instruction and, for a jump, the label that it jumps to. -/
def statement (locals : List Local) (s : String) : Except Cause (Instruction × Option String) :=
  match Text.words s with
  | ["if", left, symbol, right, "goto", label] =>
    match Comparator.ofSymbol? symbol with
    | none => .error (.unknownComparator symbol)
    | some comparator => do
      let left ← operand locals left
      let right ← operand locals right
      return (.branch comparator left right, some label)
  -- nothing else may start with this word
  | "if" :: _ => .error .malformedBranch
  | ["goto", label] => .ok (.goto, some label)
  | ["return"] => .ok (.ret, none)
  | ["return", value] => do
    -- the value has to be an operand, and is not kept
    let _ ← operand locals value
    return (.ret, none)
  | ["nop"] => .ok (.nop, none)
  | _ =>
    match Text.splitOnce '=' s with
    | some (left, right) => return (← assignment locals (Text.trim left) (Text.trim right), none)
    | none =>
      if Text.endsWith s ')' then return (.call (← call locals s), none)
      else .error (.malformedStatement s)

end Source

end RangeGuard
