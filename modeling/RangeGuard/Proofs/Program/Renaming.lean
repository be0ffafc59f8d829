import RangeGuard.Program.Loops
import RangeGuard.Proofs.Analysis.Query
import RangeGuard.Proofs.Source.Declarations

/-!
# Renaming integer variables

A renaming maps the names of integer locals, in instructions and in expressions. Locals of other
types keep their names, and so do methods, classes and fields. Control flow does not depend on
names: a graph and its renamed form have the same edges and the same loop headers.

Renaming goes through the syntax as it is written: places, right sides, calls, operands. The locals
of each are renamed one by one, so the locals of a renamed instruction are the renamed locals of the
instruction, with one lemma per kind of syntax. Expressions are renamed in the same way, and
evaluated in a store that agrees with the given one through the renaming.
-/

namespace RangeGuard

variable {ρ : String → String}

/-! ## §1 Instructions -/

/-- The local under its other name, if it is an integer. -/
def Local.rename (ρ : String → String) (v : Local) : Local :=
  if v.ty = .int then ⟨ρ v.name, v.ty⟩ else v

/-- The operand with its local renamed. -/
def Operand.rename (ρ : String → String) : Operand → Operand
  | const n => const n
  | var v => var (v.rename ρ)

/-- The call with its receiver and arguments renamed. -/
def Call.rename (ρ : String → String) (c : Call) : Call :=
  { c with
    receiver := c.receiver.map (Local.rename ρ)
    args := c.args.map (Operand.rename ρ) }

/-- The place with its locals renamed. -/
def Place.rename (ρ : String → String) : Place → Place
  | var v => var (v.rename ρ)
  | field base name => field (base.map (Local.rename ρ)) name
  | element base index => element (base.rename ρ) (index.rename ρ)

/-- The right side with its locals renamed. -/
def Rhs.rename (ρ : String → String) : Rhs → Rhs
  | const n => const n
  | ref v => ref (v.rename ρ)
  | binary op left right => binary op (left.rename ρ) (right.rename ρ)
  | call c => call (c.rename ρ)
  | unmodeled description => unmodeled description

/-- The instruction with its locals renamed. -/
def Instruction.rename (ρ : String → String) : Instruction → Instruction
  | assign target value => assign (target.rename ρ) (value.rename ρ)
  | branch comparator left right => branch comparator (left.rename ρ) (right.rename ρ)
  | call c => call (c.rename ρ)
  | nop => nop
  | goto => goto
  | ret => ret

/-- Renaming keeps types. -/
theorem Local.ty_rename (v : Local) : (v.rename ρ).ty = v.ty := by
  unfold rename
  split <;> rfl

theorem Local.rename_of_int {v : Local} (h : v.ty = .int) : v.rename ρ = ⟨ρ v.name, .int⟩ := by
  rw [rename, if_pos h, h]

/-! ### The locals of a renamed instruction -/

private theorem Operand.locals_rename (op : Operand) :
    (op.rename ρ).locals = op.locals.map (Local.rename ρ) := by
  cases op <;> rfl

/-- The receiver and the arguments of a call are renamed one by one. -/
private theorem Call.locals_rename (c : Call) :
    (c.rename ρ).locals = c.locals.map (Local.rename ρ) := by
  have hargs : (c.args.map (Operand.rename ρ)).flatMap Operand.locals =
      (c.args.flatMap Operand.locals).map (Local.rename ρ) := by
    simp only [List.flatMap_map, List.map_flatMap, Operand.locals_rename]
  have hreceiver : (c.receiver.map (Local.rename ρ)).toList =
      c.receiver.toList.map (Local.rename ρ) := by
    cases c.receiver <;> rfl
  simp only [locals, rename, List.map_append, hargs, hreceiver]

private theorem Place.locals_rename (target : Place) :
    (target.rename ρ).locals = target.locals.map (Local.rename ρ) := by
  cases target with
  | var v => rfl
  | field base name => cases base <;> rfl
  | element base index => simp [rename, locals, Operand.locals_rename]

private theorem Rhs.locals_rename (value : Rhs) :
    (value.rename ρ).locals = value.locals.map (Local.rename ρ) := by
  cases value with
  | const n => rfl
  | ref v => rfl
  | binary op left right => simp [rename, locals, Operand.locals_rename]
  | call c => exact c.locals_rename
  | unmodeled description => rfl

/-- The locals of a renamed instruction are those of the instruction, renamed. -/
theorem Instruction.locals_rename (i : Instruction) :
    (i.rename ρ).locals = i.locals.map (Local.rename ρ) := by
  cases i with
  | assign target value => simp [rename, locals, Place.locals_rename, Rhs.locals_rename]
  | branch comparator left right => simp [rename, locals, Operand.locals_rename]
  | call c => exact c.locals_rename
  | nop | goto | ret => rfl

/-! ## §2 Graphs -/

namespace FlowGraph

variable {g g' : FlowGraph}

/-- The graph with the locals of its instructions renamed. -/
def rename (ρ : String → String) (g : FlowGraph) : FlowGraph where
  nodes := g.nodes.map (Instruction.rename ρ)
  edges := g.edges
  nonempty := by simpa using g.nonempty
  closed := by simpa using g.closed

/-- The locals that the instructions of the graph mention. -/
def locals (g : FlowGraph) : List Local := g.nodes.flatMap Instruction.locals

/-- The instruction at a node is renamed; a number that is no node has `nop` still. -/
theorem instruction_rename (g : FlowGraph) (n : Node) :
    (g.rename ρ).instruction n = (g.instruction n).rename ρ := by
  simp only [instruction, rename, List.getD_eq_getElem?_getD, List.getElem?_map]
  cases g.nodes[n]? <;> rfl

theorem size_rename (g : FlowGraph) : (g.rename ρ).size = g.size := List.length_map _

/-- A local of the graph is a local of the renamed graph under its other name. -/
theorem mem_locals_rename {v : Local} (h : v ∈ g.locals) : v.rename ρ ∈ (g.rename ρ).locals := by
  obtain ⟨i, hi, hv⟩ := List.mem_flatMap.mp h
  refine List.mem_flatMap.mpr ⟨i.rename ρ, List.mem_map_of_mem hi, ?_⟩
  rw [Instruction.locals_rename]
  exact List.mem_map_of_mem hv

/-- The locals at a node are among those of the graph. -/
theorem mem_locals_of_instruction {n : Node} {v : Local} (h : v ∈ (g.instruction n).locals) :
    v ∈ g.locals := by
  unfold instruction at h
  rw [List.getD_eq_getElem?_getD] at h
  cases hget : g.nodes[n]? with
  | none =>
    rw [hget] at h
    cases h
  | some i =>
    rw [hget] at h
    exact List.mem_flatMap.mpr ⟨i, List.mem_of_getElem? hget, h⟩

/-- The search for loop headers sees the successors of nodes only. -/
theorem search_congr (h : g'.successors = g.successors) (path : List Frame) (unseen : List Node) :
    g'.search path unseen = g.search path unseen := by
  -- the two searches keep the same path, so they are followed together
  fun_induction g.search path unseen with
  | case1 => rw [search]
  | case2 unseen n outer ih => rw [search, ih]
  | case3 unseen n t pending outer hunseen ih => rw [search, if_pos hunseen, h, ih]
  | case4 unseen n t pending outer hunseen hpath ih =>
    rw [search, if_neg hunseen, if_pos hpath, ih]
  | case5 unseen n t pending outer hunseen hpath ih =>
    rw [search, if_neg hunseen, if_neg hpath, ih]

/-- A renamed graph has the same loop headers. -/
theorem loopHeaders_rename (g : FlowGraph) : (g.rename ρ).loopHeaders = g.loopHeaders := by
  have hsuccessors : (g.rename ρ).successors = g.successors := rfl
  rw [loopHeaders, size_rename]
  exact search_congr hsuccessors _ _

end FlowGraph

/-! ## §3 Expressions -/

namespace Arith

variable {σ τ : Store}

/-- The expression with its variables renamed. -/
def rename (ρ : String → String) : Arith → Arith
  | var x => var (ρ x)
  | const n => const n
  | add a b => add (a.rename ρ) (b.rename ρ)
  | sub a b => sub (a.rename ρ) (b.rename ρ)
  | mul a b => mul (a.rename ρ) (b.rename ρ)
  | div a b => div (a.rename ρ) (b.rename ρ)
  | rem a b => rem (a.rename ρ) (b.rename ρ)
  | neg a => neg (a.rename ρ)

/-- The variables of a renamed expression, in their order. -/
theorem occurrences_rename (e : Arith) :
    (e.rename ρ).occurrences = e.occurrences.map ρ := by
  induction e with
  | var x => rfl
  | const n => rfl
  | add a b iha ihb | sub a b iha ihb | mul a b iha ihb | div a b iha ihb | rem a b iha ihb =>
    simp [rename, occurrences, iha, ihb]
  | neg a iha => simpa [rename, occurrences] using iha

/-- A renamed expression has the value of the expression in a store that agrees with the other one
through the renaming. -/
theorem eval?_rename {e : Arith} (h : ∀ x ∈ e.occurrences, τ (ρ x) = σ x) :
    (e.rename ρ).eval? τ = e.eval? σ := by
  induction e with
  | var x => exact congrArg some (h x (List.mem_singleton_self x))
  | const n => rfl
  | add a b iha ihb | sub a b iha ihb | mul a b iha ihb | div a b iha ihb | rem a b iha ihb =>
    have ha := iha fun x hx => h x (List.mem_append_left _ hx)
    have hb := ihb fun x hx => h x (List.mem_append_right _ hx)
    simp only [rename, eval?, ha, hb]
  | neg a iha =>
    simp only [rename, eval?, iha h]

/-- A renamed atom is an atom. -/
theorem isAtom_rename {e : Arith} (h : e.IsAtom) : (e.rename ρ).IsAtom := by
  cases e with
  | const n => trivial
  | var x => trivial
  | _ => exact h.elim

theorem rename_arith (op : BinOp) (a b : Arith) :
    (op.arith a b).rename ρ = op.arith (a.rename ρ) (b.rename ρ) := by
  cases op <;> rfl

end Arith

/-- The constraint with the variables of its expression renamed. -/
def Constraint.rename (ρ : String → String) (c : Constraint) : Constraint :=
  ⟨c.expr.rename ρ, c.relation⟩

end RangeGuard
