import RangeGuard.Program.Instruction

/-!
# Flow graphs

The statements of a procedure, linked by the steps that control can make. Nodes are numbered in
program order and node 0 is the entry. An edge records how control takes it, so that a conditional
branch can send different states along its two edges.

## Linking

`FlowGraph.build` goes over the statements in two loops. The first makes the edges, statement by
statement, the jump of a statement before its fall; the first jump without a proper target ends it
with an error. The second loop enters each edge in two tables, at its source and at its target
(`Adjacency.ofEdges`), from which the edges at a node are read off.

A `FlowGraph` carries what linking guarantees: there is an entry, every edge joins two nodes, and
the tables are those of the edges.
-/

namespace RangeGuard

/-- A node of a flow graph: the number of a statement. -/
abbrev Node := Nat

/-- The written form of a node. -/
def Node.text (n : Node) : String := "n" ++ toString n

/-- An instruction and, for jumps, the number of the statement that it jumps to. -/
structure Statement where
  /-- The instruction. -/
  instruction : Instruction
  /-- Where it jumps to. -/
  jump : Option Node := none
deriving DecidableEq, Inhabited

/-- How control takes an edge. -/
inductive EdgeKind where
  /-- To the next statement; at a conditional branch, if the comparison fails. -/
  | fall
  /-- By a jump; at a conditional branch, if the comparison holds. -/
  | branch
deriving DecidableEq, Inhabited

/-- A step that control can make. -/
structure Edge where
  /-- Where control is before the step. -/
  source : Node
  /-- Where control is after the step. -/
  target : Node
  /-- How the step is taken. -/
  kind : EdgeKind
deriving DecidableEq, Inhabited

/-- Why statements cannot be linked. -/
inductive LinkError where
  /-- There is no statement. -/
  | emptyBody
  /-- A jump has no target. -/
  | missingTarget (source : Node)
  /-- A jump has a target that is not a statement. -/
  | targetOutOfRange (source target : Node)
deriving DecidableEq, Inhabited

/-- The wording of a linking error. -/
def LinkError.message : LinkError → String
  | emptyBody => "procedure body has no statements"
  | missingTarget source => "jump at " ++ source.text ++ " has no target"
  | targetOutOfRange source target =>
    "jump at " ++ source.text ++ " targets " ++ target.text ++ ", which does not exist"

/-- The positions of edges in their list, in two tables with one row for each node. -/
structure Adjacency where
  /-- The edges that leave a node. -/
  outgoing : List (List Nat)
  /-- The edges that enter a node. -/
  incoming : List (List Nat)
deriving DecidableEq

namespace Adjacency

/-- Enters an edge at the end of the row of one of its nodes. -/
def enter (node : Edge → Node) (rows : List (List Nat)) (edge : Edge × Nat) : List (List Nat) :=
  rows.modify (node edge.1) (· ++ [edge.2])

/-- Enters an edge at its source and at its target. -/
def add (a : Adjacency) (edge : Edge × Nat) : Adjacency :=
  ⟨enter (·.source) a.outgoing edge, enter (·.target) a.incoming edge⟩

/-- The tables for `n` nodes: the edges are entered one after the other. -/
def ofEdges (n : Nat) (edges : List Edge) : Adjacency :=
  edges.zipIdx.foldl add ⟨List.replicate n [], List.replicate n []⟩

end Adjacency

/-- Linked statements. -/
structure FlowGraph where
  /-- The instructions, by node. -/
  nodes : List Instruction
  /-- The edges, in the order of their sources. -/
  edges : List Edge
  /-- There is an entry node. -/
  nonempty : nodes ≠ []
  /-- Every edge joins two nodes. -/
  closed : ∀ e ∈ edges, e.source < nodes.length ∧ e.target < nodes.length
  /-- The edges at each node. -/
  adjacency : Adjacency := .ofEdges nodes.length edges
  /-- The tables hold the edges of the graph. -/
  adjacency_eq : adjacency = .ofEdges nodes.length edges := by rfl
deriving DecidableEq

namespace FlowGraph

/-! ## Linking -/

/-- The target of the jump at node `i` of `n` statements. -/
def jumpTarget (n : Nat) (i : Node) (s : Statement) : Except LinkError Node :=
  match s.jump with
  | none => .error (.missingTarget i)
  | some t => if t < n then .ok t else .error (.targetOutOfRange i t)

/-- The edge from node `i` to the next of `n` statements, if there is one. -/
def fallEdges (n : Nat) (i : Node) : List Edge :=
  if i + 1 < n then [⟨i, i + 1, .fall⟩] else []

/-- The edges that leave node `i` of `n` statements: the jump first. -/
def exits (n : Nat) (i : Node) (s : Statement) : Except LinkError (List Edge) :=
  match s.instruction with
  | .branch _ _ _ => do
    let t ← jumpTarget n i s
    return ⟨i, t, .branch⟩ :: fallEdges n i
  | .goto => do
    let t ← jumpTarget n i s
    return [⟨i, t, .branch⟩]
  | .ret => return []
  | _ => return fallEdges n i

/-- The edges of the statements from node `i` on; the first statement that fails decides. -/
def link (n : Nat) : Node → List Statement → Except LinkError (List Edge)
  | _, [] => .ok []
  | i, s :: rest => do
    let here ← exits n i s
    let later ← link n (i + 1) rest
    return here ++ later

/-- A target that was accepted is a statement. -/
private theorem jumpTarget_lt {n i t : Nat} {s : Statement} (h : jumpTarget n i s = .ok t) :
    t < n := by
  unfold jumpTarget at h
  split at h
  · cases h
  · split at h
    · cases h
      assumption
    · cases h

private theorem fallEdges_closed {n i : Nat} (hi : i < n) :
    ∀ e ∈ fallEdges n i, e.source < n ∧ e.target < n := by
  intro e he
  unfold fallEdges at he
  split at he
  · simp only [List.mem_singleton] at he
    subst he
    exact ⟨hi, by assumption⟩
  · cases he

/-- The edges of one statement stay among the statements. -/
private theorem exits_closed {n i : Nat} {s : Statement} {es : List Edge} (hi : i < n)
    (h : exits n i s = .ok es) : ∀ e ∈ es, e.source < n ∧ e.target < n := by
  unfold exits at h
  split at h
  · -- a conditional branch: the jump, then the fall
    cases ht : jumpTarget n i s with
    | error _ => simp [ht, bind, Except.bind] at h
    | ok t =>
      simp only [ht, bind, Except.bind, pure, Except.pure, Except.ok.injEq] at h
      subst h
      intro e he
      rcases List.mem_cons.mp he with rfl | he
      · exact ⟨hi, jumpTarget_lt ht⟩
      · exact fallEdges_closed hi e he
  · -- an unconditional jump
    cases ht : jumpTarget n i s with
    | error _ => simp [ht, bind, Except.bind] at h
    | ok t =>
      simp only [ht, bind, Except.bind, pure, Except.pure, Except.ok.injEq] at h
      subst h
      intro e he
      simp only [List.mem_singleton] at he
      subst he
      exact ⟨hi, jumpTarget_lt ht⟩
  · cases h
    simp
  · cases h
    exact fallEdges_closed hi

/-- The edges of all statements stay among the statements. -/
private theorem link_closed {n i : Nat} {ss : List Statement} {es : List Edge}
    (hi : i + ss.length ≤ n)
    (h : link n i ss = .ok es) : ∀ e ∈ es, e.source < n ∧ e.target < n := by
  induction ss generalizing i es with
  | nil =>
    cases h
    simp
  | cons s rest ih =>
    simp only [List.length_cons] at hi
    cases hh : exits n i s with
    | error _ => simp [link, hh, bind, Except.bind] at h
    | ok here =>
      cases hl : link n (i + 1) rest with
      | error _ => simp [link, hh, hl, bind, Except.bind] at h
      | ok later =>
        simp only [link, hh, hl, bind, Except.bind, pure, Except.pure, Except.ok.injEq] at h
        subst h
        intro e he
        rcases List.mem_append.mp he with he | he
        · exact exits_closed (by omega) hh e he
        · exact ih (by omega) hl e he

/-- Links statements into a graph. A conditional branch gets an edge to its target and one to the
next statement, an unconditional jump only the first, a return none, and everything else only the
second. Running off the last statement ends the procedure. -/
def build (statements : List Statement) : Except LinkError FlowGraph :=
  if hne : statements = [] then .error .emptyBody
  else match h : link statements.length 0 statements with
    | .error e => .error e
    | .ok edges => .ok {
        nodes := statements.map (·.instruction)
        edges := edges
        nonempty := by simpa using hne
        closed := by simpa using link_closed (by simp) h }

/-! ## Nodes and edges -/

/-- The number of nodes. -/
def size (g : FlowGraph) : Nat := g.nodes.length

/-- The node where control starts. -/
def entry (_ : FlowGraph) : Node := 0

/-- The instruction at a node. -/
def instruction (g : FlowGraph) (n : Node) : Instruction := g.nodes.getD n .nop

/-- The positions of the edges that leave a node, in the order in which they were entered. -/
def outgoing (g : FlowGraph) (n : Node) : List Nat := g.adjacency.outgoing.getD n []

/-- The positions of the edges that enter a node, in the order in which they were entered. -/
def incoming (g : FlowGraph) (n : Node) : List Nat := g.adjacency.incoming.getD n []

/-- The nodes that control can reach from a node in one step, in the order of the edges. -/
def successors (g : FlowGraph) (n : Node) : List Node :=
  (g.edges.filter fun e => e.source = n).map (·.target)

/-- The nodes from which control can reach a node in one step, in the order of the edges. -/
def predecessors (g : FlowGraph) (n : Node) : List Node :=
  (g.edges.filter fun e => e.target = n).map (·.source)

end FlowGraph

end RangeGuard
