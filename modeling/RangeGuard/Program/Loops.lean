import RangeGuard.Program.FlowGraph

/-!
# Loop headers

A depth-first search from the entry finds the edges that lead back to a node on the current path.
Each of them closes a loop, and its target is a loop header. Every cycle that control can reach
contains such an edge, so widening at the headers makes an iteration over the graph stable.

## The search

`FlowGraph.search` keeps the path from the entry, each node on it with the successors that are still
to be looked at, and the nodes that have not been seen. It looks at one successor at a time, and
either closes a loop, or skips a node that was left before, or goes on at a new node. The nodes not
seen and the successors not looked at become fewer in lexicographic order.

The search is not structurally recursive, so `decide` does not run it. Its equations are simp lemmas
instead (`search_nil`, `search_done`, `search_next`), with which `simp` follows it step by step in a
graph that is written out.
-/

namespace RangeGuard

/-- An edge that closes a loop. -/
structure LoopHeader where
  /-- The node where the loop is entered again. -/
  header : Node
  /-- The node from which control comes back. -/
  source : Node
deriving DecidableEq, Inhabited

namespace FlowGraph

/-- A node on the current path with the successors that are still to be explored. -/
structure Frame where
  /-- The node. -/
  node : Node
  /-- The successors left. -/
  pending : List Node

/-- The number of steps that the frames of a path still take. -/
def pendingSteps (path : List Frame) : Nat :=
  path.foldr (fun frame steps => frame.pending.length + 1 + steps) 0

/-- Depth-first search. The path lists the nodes that are being explored, the innermost first;
`unseen` lists the nodes that the search has not met; a node that is in neither is done. -/
def search (g : FlowGraph) (path : List Frame) (unseen : List Node) : List LoopHeader :=
  match path with
  | [] => []
  | ⟨_, []⟩ :: outer => g.search outer unseen
  | ⟨n, t :: pending⟩ :: outer =>
    -- a new node is explored before the other successors of `n`
    if t ∈ unseen then
      g.search (⟨t, g.successors t⟩ :: ⟨n, pending⟩ :: outer) (unseen.erase t)
    -- a node on the path: the edge closes a loop
    else if t = n ∨ ∃ frame ∈ outer, frame.node = t then
      ⟨t, n⟩ :: g.search (⟨n, pending⟩ :: outer) unseen
    else
      g.search (⟨n, pending⟩ :: outer) unseen
  termination_by (unseen.length, pendingSteps path)
  decreasing_by
    · apply Prod.Lex.right
      simp [pendingSteps]
    · apply Prod.Lex.left
      have hpos : 0 < unseen.length := List.length_pos_of_mem (by assumption)
      rw [List.length_erase_of_mem (by assumption)]
      omega
    · apply Prod.Lex.right
      simp [pendingSteps]
    · apply Prod.Lex.right
      simp [pendingSteps]

section

variable {g : FlowGraph} {n t : Node} {pending unseen : List Node} {outer : List Frame}

@[simp] theorem search_nil : g.search [] unseen = [] := by
  rw [search]

@[simp] theorem search_done : g.search (⟨n, []⟩ :: outer) unseen = g.search outer unseen := by
  rw [search]

@[simp] theorem search_next : g.search (⟨n, t :: pending⟩ :: outer) unseen =
    if t ∈ unseen then
      g.search (⟨t, g.successors t⟩ :: ⟨n, pending⟩ :: outer) (unseen.erase t)
    else if t = n ∨ ∃ frame ∈ outer, frame.node = t then
      ⟨t, n⟩ :: g.search (⟨n, pending⟩ :: outer) unseen
    else g.search (⟨n, pending⟩ :: outer) unseen := by
  rw [search]

end

/-- The loop headers, in the order in which the search from the entry meets them. -/
def loopHeaders (g : FlowGraph) : List LoopHeader :=
  g.search [⟨g.entry, g.successors g.entry⟩] ((List.range g.size).erase g.entry)

section

variable {first : Instruction} {nodes rest : List Instruction} {edges : List Edge} {a : Adjacency}

@[simp] theorem successors_mk {hne : nodes ≠ []}
    {hclosed : ∀ e ∈ edges, e.source < nodes.length ∧ e.target < nodes.length}
    {ha : a = .ofEdges nodes.length edges} (n : Node) :
    (FlowGraph.mk nodes edges hne hclosed a ha).successors n =
      (edges.filter fun e => e.source = n).map (·.target) := rfl

/-- The search in a graph whose nodes are listed starts at the first one. -/
@[simp] theorem loopHeaders_mk {hne : first :: rest ≠ []}
    {hclosed : ∀ e ∈ edges, e.source < (first :: rest).length ∧ e.target < (first :: rest).length}
    {ha : a = .ofEdges (first :: rest).length edges} :
    (FlowGraph.mk (first :: rest) edges hne hclosed a ha).loopHeaders =
      search ⟨first :: rest, edges, hne, hclosed, a, ha⟩
        [⟨0, successors ⟨first :: rest, edges, hne, hclosed, a, ha⟩ 0⟩]
        ((rest.zipIdx 1).map (·.2)) := by
  have hunseen : (List.range (rest.length + 1)).erase 0 = (rest.zipIdx 1).map (·.2) := by
    rw [List.zipIdx_map_snd, List.range_eq_range', List.range'_succ, List.erase_cons_head]
  simp only [loopHeaders, entry, size, List.length_cons, hunseen]

end

/-- The node is the header of a loop. -/
def isLoopHeader (headers : List LoopHeader) (n : Node) : Bool :=
  headers.any fun h => h.header = n

/-- The edge closes a loop. -/
def isBackEdge (headers : List LoopHeader) (e : Edge) : Bool :=
  headers.any fun h => h.header = e.target ∧ h.source = e.source

end FlowGraph

end RangeGuard
