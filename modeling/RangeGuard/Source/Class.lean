import RangeGuard.Program.Class
import RangeGuard.Source.Statement

/-!
# Reading classes

A class is read line by line. The first line names it, `class demo.Printer`. Fields, `field int x`,
and methods follow; a method goes from `method m` to `end`. In a method, `param int x` and
`local int x` declare locals, a name with a colon labels the statement that follows, and everything
else is a statement. The text from a number sign to the end of a line is a comment. Each method
declares `this`.

A method under construction is a `Source.MethodDraft`; its labels are resolved and its statements
linked when its `end` is read. `Source.Progress` is the state of the reader between two lines, and
`Class.parse` runs it over a text.
-/

namespace RangeGuard

namespace Source

/-! ## Methods -/

/-- A statement whose jump still has the label as its target. -/
structure DraftStatement where
  /-- The instruction. -/
  instruction : Instruction
  /-- The label that it jumps to. -/
  label : Option String
  /-- The line on which it stands. -/
  line : Nat

/-- A method up to some line. -/
structure MethodDraft where
  /-- The name. -/
  name : String
  /-- The line on which the method starts. -/
  startLine : Nat
  /-- The parameters. -/
  params : List Local
  /-- All locals. -/
  locals : List Local
  /-- The statements. -/
  statements : List DraftStatement
  /-- The labels with the number of the statement that follows. -/
  labels : List (String × Node)

namespace MethodDraft

/-- A method at its first line. -/
def begin (className name : String) (line : Nat) : MethodDraft where
  name := name
  startLine := line
  params := []
  locals := [⟨"this", .object className⟩]
  statements := []
  labels := []

/-- Declares a local; parameters are listed apart too. -/
def declare (m : MethodDraft) (isParam : Bool) (type name : String) :
    Except Cause MethodDraft := do
  let ty ← declaredType type
  let name ← identifier name
  if m.locals.any fun v => v.name = name then .error (.duplicate name)
  else
    let v : Local := ⟨name, ty⟩
    return { m with
      params := if isParam then m.params ++ [v] else m.params
      locals := m.locals ++ [v] }

/-- Labels the statement that follows. -/
def addLabel (m : MethodDraft) (s : String) : Except Cause MethodDraft := do
  -- all colons at the end are dropped
  let label ← identifier (String.ofList (Text.dropEndWhile (· = ':') s.toList))
  if m.labels.any fun entry => entry.1 = label then .error (.duplicate label)
  else return { m with labels := m.labels ++ [(label, m.statements.length)] }

/-- Adds a statement. -/
def addStatement (m : MethodDraft) (line : Nat) (s : String) : Except Cause MethodDraft := do
  let (instruction, label) ← statement m.locals s
  return { m with statements := m.statements ++ [⟨instruction, label, line⟩] }

/-- Reads a line of the method other than its last one. -/
def addLine (m : MethodDraft) (line : Nat) (s : String) : Except Cause MethodDraft :=
  match Text.words s with
  | ["param", type, name] => m.declare true type name
  | ["local", type, name] => m.declare false type name
  -- a single word without a colon may still be a statement, such as `nop`
  | [word] => if Text.endsWith word ':' then m.addLabel word else m.addStatement line s
  | _ => m.addStatement line s

/-- The statement that a label stands before. -/
def target? (m : MethodDraft) (label : String) : Option Node :=
  (m.labels.find? fun entry => entry.1 = label).map (·.2)

/-- Replaces the label of a jump by the number of a statement. -/
def resolve (m : MethodDraft) (s : DraftStatement) : Except SourceError Statement :=
  match s.label with
  | none => .ok ⟨s.instruction, none⟩
  | some label =>
    match m.target? label with
    | some target => .ok ⟨s.instruction, some target⟩
    | none => .error ⟨s.line, .undefinedLabel label⟩

/-- The statement that ends a body without one: a body is never empty, and a label at its end stands
before a return. -/
def finalReturn (m : MethodDraft) : List Statement :=
  let size := m.statements.length
  if size = 0 ∨ m.labels.any fun entry => entry.2 = size then [⟨.ret, none⟩] else []

/-- The procedure of a method that has been read. -/
def finish (m : MethodDraft) : Except SourceError Procedure := do
  let statements ← m.statements.mapM m.resolve
  match FlowGraph.build (statements ++ m.finalReturn) with
  -- no line is to blame for a linking error, so it is reported where the method starts
  | .error error => .error ⟨m.startLine, .unlinkable error⟩
  | .ok graph => return ⟨m.name, m.params, m.locals, graph⟩

end MethodDraft

/-! ## Classes -/

/-- What has been read up to some line. -/
inductive Progress where
  /-- No class has been named. -/
  | start
  /-- Between the members of a class. -/
  | inClass (c : Class)
  /-- In a method of a class. -/
  | inMethod (c : Class) (m : MethodDraft)

/-- Reads the line that names the class. -/
def readHeader (s : String) : Except Cause Progress :=
  match Text.words s with
  | ["class", name] => return .inClass ⟨← typeName name, [], []⟩
  | _ => .error .missingClass

/-- Reads a line between the members of a class. -/
def readMember (c : Class) (line : Nat) (s : String) : Except Cause Progress :=
  match Text.words s with
  | ["field", type, name] => do
    -- a name that is taken is reported before a type that is none
    let name ← identifier name
    if c.fields.any fun f => f.name = name then .error (.duplicate name)
    else return .inClass { c with fields := c.fields ++ [⟨name, ← declaredType type⟩] }
  | ["method", name] => do
    let name ← identifier name
    if c.procedures.any fun p => p.name = name then .error (.duplicate name)
    else return .inMethod c (.begin c.name name line)
  | _ => .error (.strayLine s)

/-- Reads a line that is not blank, without its comment and the white space around it. -/
def readLine (progress : Progress) (line : Nat) (s : String) : Except SourceError Progress :=
  match progress with
  | .start => (readHeader s).mapError (⟨line, ·⟩)
  | .inClass c => (readMember c line s).mapError (⟨line, ·⟩)
  | .inMethod c m =>
    if Text.words s = ["end"] then do
      let p ← m.finish
      return .inClass { c with procedures := c.procedures ++ [p] }
    else ((m.addLine line s).map (.inMethod c)).mapError (⟨line, ·⟩)

/-- The text of a line without its comment and the white space around it. -/
def content (s : String) : String :=
  match Text.splitOnce '#' s with
  | some (before, _) => Text.trim before
  | none => Text.trim s

/-- Reads lines, the first of which has the given number. -/
def readLines (progress : Progress) (line : Nat) : List String → Except SourceError Progress
  | [] => .ok progress
  | s :: rest => do
    let text := content s
    -- blank lines say nothing, but they are counted
    if text = "" then readLines progress (line + 1) rest
    else
      let next ← readLine progress line text
      readLines next (line + 1) rest

end Source

/-- The class of a source text. -/
def Class.parse (text : String) : Except SourceError Class := do
  match ← Source.readLines .start 1 (Text.lines text) with
  | .start => .error ⟨1, .missingClass⟩
  | .inClass c => return c
  | .inMethod _ m => .error ⟨m.startLine, .unterminatedMethod m.name⟩

end RangeGuard
