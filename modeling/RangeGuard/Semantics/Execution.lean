import RangeGuard.Arith.Basic
import RangeGuard.Program.Class

/-!
# Executions

What running a procedure means. Integer locals hold integers of any size, and every local may refer
to an object, of which only its origin is kept: the statement that allocated it during the run, or
the world outside the procedure. What the procedure cannot determine (the result of a call, the
content of a field, the value of a local that is not an integer) may be anything.

## Runs

`Instruction.Effect` relates the memories before and after an instruction, on the way along an edge
of a given kind. `FlowGraph.Arrives` is the reachability that follows: a run can be at a node with
some memory. A division by zero stops a run, and so does the end of the procedure; both are states
without a successor.

Soundness of the analyses is stated against `FlowGraph.Arrives`, so every choice that is left open
here is one that the analyses have to account for.
-/

namespace RangeGuard

/-! ## Memory -/

/-- The origin of an object. -/
inductive Object where
  /-- Allocated during the run by the statement at a node. -/
  | allocated (site : Node)
  /-- From outside the procedure. -/
  | external
deriving DecidableEq

/-- What the locals of a procedure hold. -/
structure Memory where
  /-- The integers, by name. -/
  ints : Store
  /-- The objects that the locals refer to, by name. -/
  refs : String → Option Object

/-- The memory in which `x` refers to another object. -/
def Memory.setRef (s : Memory) (x : String) (o : Option Object) : Memory :=
  { s with refs := fun y => if y = x then o else s.refs y }

/-- The memory in which an integer local has another value; nothing changes for other locals. -/
def Memory.setInt (s : Memory) (v : Local) (n : Int) : Memory :=
  if v.ty = .int then { s with ints := s.ints.set v.name n } else s

/-- A memory with which a procedure may be entered: integers are arbitrary, parameters and the
receiver may refer to objects from outside, and the other locals refer to none. -/
def Memory.Initial (p : Procedure) (s : Memory) : Prop :=
  ∀ x o, s.refs x = some o → o = .external ∧ (x = "this" ∨ ∃ v ∈ p.params, v.name = x)

/-! ## Values -/

/-- The integers that a local may be read as: its value if it is an integer local, anything if it is
not. -/
def Local.Reads (σ : Store) (v : Local) (n : Int) : Prop := v.ty = .int → n = σ v.name

/-- The integers that an operand may be read as. -/
def Operand.Reads (σ : Store) : Operand → Int → Prop
  | const m, n => n = m
  | var v, n => v.Reads σ n

/-- The integers that a right side may have as its value. A zero divisor gives none. -/
def Rhs.Yields (σ : Store) : Rhs → Int → Prop
  | const m, n => n = m
  | ref v, n => v.Reads σ n
  | binary op left right, n =>
    ∃ a b, left.Reads σ a ∧ right.Reads σ b ∧ op.result? a b = some n
  | call _, _ => True
  | unmodeled _, _ => True

/-- The objects that a right side may refer to. -/
def Rhs.Refers (refs : String → Option Object) : Rhs → Option Object → Prop
  | ref v, o => o = refs v.name
  | const _, o => o = none
  | binary _ _ _, o => o = none
  | call _, o => o = none ∨ o = some .external
  | unmodeled _, o => o = none ∨ o = some .external

/-! ## Runs -/

/-- What the instruction at node `n` may do to the memory on the way along an edge of a given kind.
-/
def Instruction.Effect (n : Node) (kind : EdgeKind) (s t : Memory) : Instruction → Prop
  | assign (.var v) value =>
    ∃ m o, value.Yields s.ints m ∧ value.Refers s.refs o ∧ t = (s.setInt v m).setRef v.name o
  | assign _ value => t = s ∧ ∃ m, value.Yields s.ints m
  | branch comparator left right =>
    t = s ∧ ∃ a b, left.Reads s.ints a ∧ right.Reads s.ints b ∧
      (comparator.Holds a b ↔ kind = .branch)
  | call c =>
    match c.kind, c.receiver with
    | .constructor, some v => t = s.setRef v.name (some (.allocated n))
    | _, _ => t = s
  | nop => t = s
  | goto => t = s
  | ret => False

/-- A run that starts at the entry with a memory that satisfies `start` can be at node `n` with the
memory `s`. -/
inductive FlowGraph.Arrives (g : FlowGraph) (start : Memory → Prop) : Node → Memory → Prop where
  /-- At the start. -/
  | entry {s : Memory} : start s → Arrives g start g.entry s
  /-- After a step along an edge. -/
  | step {e : Edge} {s t : Memory} :
      Arrives g start e.source s → e ∈ g.edges →
      (g.instruction e.source).Effect e.source e.kind s t → Arrives g start e.target t

end RangeGuard
