import RangeGuard.Domain.Basic
import RangeGuard.Program.FlowGraph

/-!
# Transfer of instructions

An instruction takes the state before its node to the states on the edges that leave it. A
conditional branch has one state for each of its two edges; every other instruction has one state
for all (`Outcome`).

What the domain cannot express never fails: the variable that is written is forgotten, or the state
passes unchanged. Only the domain itself can fail, and `Domain.fallback` is the answer to that. It
is right whatever the domain would have answered, which is what keeps an analysis sound over a
domain that fails.
-/

namespace RangeGuard

/-- The states on the edges that leave a node. -/
inductive Outcome (σ : Type) where
  /-- One state for every edge. -/
  | uniform (state : σ)
  /-- A state for the edge taken if a comparison holds and one for the edge taken if it fails. -/
  | split (taken notTaken : σ)
deriving DecidableEq

/-- The state on an edge of the given kind. -/
def Outcome.along {σ : Type} : Outcome σ → EdgeKind → σ
  | uniform state, _ => state
  | split taken _, .branch => taken
  | split _ notTaken, .fall => notTaken

/-! ## Operators and comparisons as expressions -/

/-- The expression that applies an operator. -/
def BinOp.arith : BinOp → Arith → Arith → Arith
  | add => .add
  | sub => .sub
  | mul => .mul
  | div => .div
  | rem => .rem

/-- The comparison that holds exactly where the given one fails. -/
def Comparator.negate : Comparator → Comparator
  | eq => ne
  | ne => eq
  | lt => ge
  | le => gt
  | gt => le
  | ge => lt

/-- The constraint that says that a comparison of two expressions holds: their difference, taken so
that the relation points upward, compared with zero. -/
def Comparator.constraint : Comparator → Arith → Arith → Constraint
  | eq, l, r => ⟨.sub l r, .eq⟩
  | ne, l, r => ⟨.sub l r, .ne⟩
  | lt, l, r => ⟨.sub r l, .gt⟩
  | le, l, r => ⟨.sub r l, .ge⟩
  | gt, l, r => ⟨.sub l r, .gt⟩
  | ge, l, r => ⟨.sub l r, .ge⟩

namespace Domain

variable {σ : Type}

/-! ## Instructions -/

/-- The local is an integer of the scope. -/
def tracks (d : Domain σ) (v : Local) : Bool := v.ty.isInt && d.scope.contains v.name

/-- The expression of an operand that the domain can express. -/
def operand? (d : Domain σ) : Operand → Option Arith
  | .const n => some (.const n)
  | .var v => if d.tracks v then some (.var v.name) else none

/-- The effect of storing a right side in a tracked variable. A division by the constant zero has no
successor; a right side that the domain cannot express leaves the variable unknown. -/
def store (d : Domain σ) (s : σ) (x : String) : Rhs → Except Fault σ
  | .const n => d.assign s x (.const n)
  | .ref source => if d.tracks source then d.assign s x (.var source.name) else d.forget s x
  | .binary op left right =>
    if op.isDivision && decide (right = .const 0) then .ok d.bottom
    else match d.operand? left, d.operand? right with
      | some l, some r => d.assign s x (op.arith l r)
      | _, _ => d.forget s x
  | .call _ => d.forget s x
  | .unmodeled _ => d.forget s x

/-- The effect of an assignment: none unless the target is a tracked local. -/
def assignment (d : Domain σ) (s : σ) (target : Place) (value : Rhs) : Except Fault σ :=
  match target with
  | .var v => if d.tracks v then d.store s v.name value else .ok s
  | _ => .ok s

/-- The states in which a comparison holds and in which it fails. A comparison that the domain
cannot express refines neither. -/
def condition (d : Domain σ) (s : σ) (comparator : Comparator) (left right : Operand) :
    Except Fault (σ × σ) :=
  match d.operand? left, d.operand? right with
  | some l, some r => do
    let taken ← d.constrain s (comparator.constraint l r)
    let notTaken ← d.constrain s (comparator.negate.constraint l r)
    return (taken, notTaken)
  | _, _ => .ok (s, s)

/-- The outcome of an instruction in a state. Nothing happens where no store arrives. -/
def transfer (d : Domain σ) (s : σ) (i : Instruction) : Except Fault (Outcome σ) :=
  if d.isBottom s then .ok (.uniform s)
  else match i with
    | .assign target value => (d.assignment s target value).map .uniform
    | .branch comparator left right =>
      (d.condition s comparator left right).map fun states => .split states.1 states.2
    -- calls do not change integer locals, and jumps and returns change nothing
    | _ => .ok (.uniform s)

/-- The outcome that stands in for a failed transfer: a tracked target is forgotten, or everything
is if even that fails, and a comparison refines neither edge. -/
def fallback (d : Domain σ) (s : σ) : Instruction → Outcome σ
  | .assign (.var v) _ =>
    if d.tracks v then
      match d.forget s v.name with
      | .ok forgotten => .uniform forgotten
      | .error _ => .uniform d.top
    else .uniform s
  | .branch _ _ _ => .split s s
  | _ => .uniform s

end Domain

end RangeGuard
