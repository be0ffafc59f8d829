import Mathlib.Logic.Relation
import RangeGuard.Proofs.Program.LoopHeaders

/-!
# Loop headers and cycles

The depth-first search reports an edge when it leads to a node on the current path. Such an edge
closes a loop: the path leads from the entry to that node, and from there on to the node at which
the search stands. Conversely, the nodes that can be reached have ranks that all other edges
increase, so no cycle does without a reported edge. Both hold whatever the graph looks like, also
for loops with several entries, for edges from a node to itself and for parallel edges.

The first direction is an invariant of the search (`FlowGraph.Threaded`) with one lemma for each
thing that the search does to its path: it leaves a node, it skips a successor, it enters one. The
second direction needs nothing of the search but the ranks.
-/

open Relation (TransGen)

namespace RangeGuard

namespace FlowGraph

variable {g : FlowGraph} {u v w n t : Node} {es : List Edge} {path outer : List Frame}
  {pending unseen : List Node}

/-! ## §1 Walks -/

/-- Edges of the graph that lead from one node to another, each starting where the one before it
ends. -/
inductive Walk (g : FlowGraph) : Node → List Edge → Node → Prop
  /-- Staying at a node. -/
  | nil (n : Node) : g.Walk n [] n
  /-- Taking an edge, and then others. -/
  | cons {e : Edge} {es : List Edge} {n : Node} (he : e ∈ g.edges) (hes : g.Walk e.target es n) :
      g.Walk e.source (e :: es) n

/-- Control can go from one node to the other. -/
def Leads (g : FlowGraph) (u v : Node) : Prop := ∃ es, g.Walk u es v

theorem Leads.refl (g : FlowGraph) (n : Node) : g.Leads n n := ⟨[], .nil n⟩

/-- Walks can be put together. -/
theorem Walk.append {es' : List Edge} (h : g.Walk u es v) (h' : g.Walk v es' w) :
    g.Walk u (es ++ es') w := by
  induction h with
  | nil => exact h'
  | cons he _ ih => exact .cons he (ih h')

theorem Leads.trans (h : g.Leads u v) (h' : g.Leads v w) : g.Leads u w := by
  obtain ⟨es, h⟩ := h
  obtain ⟨es', h'⟩ := h'
  exact ⟨es ++ es', h.append h'⟩

/-- A node leads to its successors. -/
private theorem leads_of_mem_successors (h : v ∈ g.successors u) : g.Leads u v := by
  obtain ⟨e, he, rfl, rfl⟩ := mem_successors.mp h
  exact ⟨[e], .cons he (.nil _)⟩

/-! ## §2 Reported edges close loops -/

/-- What a search knows of the nodes on its path, the innermost first: they can be reached, the ones
further outside lead to the ones further inside, and what is left to explore at a node are
successors of it. -/
structure Threaded (g : FlowGraph) (path : List Frame) : Prop where
  reached : ∀ frame ∈ path, g.Leads g.entry frame.node
  nested : path.Pairwise fun inner outer => g.Leads outer.node inner.node
  pending : ∀ frame ∈ path, frame.pending ⊆ g.successors frame.node

/-- The search starts at the entry, with all its successors to explore. -/
private theorem threaded_start (g : FlowGraph) : g.Threaded [⟨g.entry, g.successors g.entry⟩] where
  reached := List.forall_mem_singleton.mpr (Leads.refl g _)
  nested := List.pairwise_singleton _ _
  pending := List.forall_mem_singleton.mpr (List.Subset.refl _)

namespace Threaded

private theorem successor (h : g.Threaded (⟨n, t :: pending⟩ :: outer)) : t ∈ g.successors n :=
  h.pending _ List.mem_cons_self List.mem_cons_self

/-- Leaving the innermost node. -/
theorem finish (h : g.Threaded (⟨n, pending⟩ :: outer)) : g.Threaded outer where
  reached := (List.forall_mem_cons.mp h.reached).2
  nested := (List.pairwise_cons.mp h.nested).2
  pending := (List.forall_mem_cons.mp h.pending).2

/-- Going on with the next successor of the innermost node. -/
theorem skip (h : g.Threaded (⟨n, t :: pending⟩ :: outer)) :
    g.Threaded (⟨n, pending⟩ :: outer) where
  reached := List.forall_mem_cons.mpr (List.forall_mem_cons.mp h.reached)
  nested := List.pairwise_cons.mpr (List.pairwise_cons.mp h.nested)
  pending := by
    obtain ⟨hhead, houter⟩ := List.forall_mem_cons.mp h.pending
    exact List.forall_mem_cons.mpr ⟨(List.cons_subset.mp hhead).2, houter⟩

/-- Entering a successor of the innermost node. -/
theorem enter (h : g.Threaded (⟨n, t :: pending⟩ :: outer)) :
    g.Threaded (⟨t, g.successors t⟩ :: ⟨n, pending⟩ :: outer) where
  reached := by
    refine List.forall_mem_cons.mpr ⟨?_, h.skip.reached⟩
    exact (h.reached _ List.mem_cons_self).trans (leads_of_mem_successors h.successor)
  nested := by
    refine List.pairwise_cons.mpr ⟨?_, h.skip.nested⟩
    -- every node on the path leads to `n`, and `n` to `t`
    have hstep := leads_of_mem_successors h.successor
    refine List.forall_mem_cons.mpr ⟨hstep, fun frame hframe => ?_⟩
    exact ((List.pairwise_cons.mp h.nested).1 frame hframe).trans hstep
  pending := List.forall_mem_cons.mpr ⟨List.Subset.refl _, h.skip.pending⟩

/-- A node on the path leads to the innermost one. -/
theorem leads (h : g.Threaded (⟨n, pending⟩ :: outer))
    (ht : t = n ∨ ∃ frame ∈ outer, frame.node = t) : g.Leads t n := by
  rcases ht with rfl | ⟨frame, hframe, rfl⟩
  · exact Leads.refl g _
  · exact (List.pairwise_cons.mp h.nested).1 frame hframe

end Threaded

/-- The edge from the source to the header closes a loop that can be reached. -/
def Closes (g : FlowGraph) (h : LoopHeader) : Prop :=
  h.header ∈ g.successors h.source ∧ g.Leads g.entry h.header ∧ g.Leads h.header h.source

/-- Every edge that a search reports closes a loop. -/
theorem closes_of_mem_search (hpath : g.Threaded path) :
    ∀ h ∈ g.search path unseen, g.Closes h := by
  fun_induction search g path unseen with
  | case1 => simp
  | case2 unseen n outer ih => exact ih hpath.finish
  | case3 unseen n t pending outer _ ih => exact ih hpath.enter
  | case4 unseen n t pending outer _ hback ih =>
    refine List.forall_mem_cons.mpr ⟨?_, ih hpath.skip⟩
    -- the header is on the path, so the entry leads to it
    have hentry : g.Leads g.entry t := by
      rcases hback with rfl | ⟨frame, hframe, rfl⟩
      · exact hpath.reached _ List.mem_cons_self
      · exact hpath.reached frame (List.mem_cons_of_mem _ hframe)
    exact ⟨hpath.successor, hentry, hpath.leads hback⟩
  | case5 unseen n t pending outer _ _ ih => exact ih hpath.skip

/-! ## §3 Cycles contain reported edges -/

/-- Along edges that are not reported, ranks increase. -/
theorem Walk.rank_le {reached : Node → Prop} {rank : Node → Nat} {H : List LoopHeader}
    (hedges : ∀ e ∈ g.edges, reached e.source → reached e.target ∧
      (⟨e.target, e.source⟩ ∈ H ∨ rank e.source < rank e.target))
    (h : g.Walk u es v) (hu : reached u) (hes : ∀ e ∈ es, ⟨e.target, e.source⟩ ∉ H) :
    rank u + es.length ≤ rank v := by
  induction h with
  | nil => exact Nat.le_refl _
  | cons he _ ih =>
    obtain ⟨hhead, htail⟩ := List.forall_mem_cons.mp hes
    obtain ⟨htarget, hback | hlt⟩ := hedges _ he hu
    · exact absurd hback hhead
    · have hrest := ih htarget htail
      -- the first edge goes up by one at least, and so do the others
      rw [List.length_cons]
      omega

/-- Whatever the entry leads to belongs to any set of nodes that has the entry and is closed under
edges. -/
theorem Leads.reached {reached : Node → Prop}
    (hedges : ∀ e ∈ g.edges, reached e.source → reached e.target) (h : g.Leads u v)
    (hu : reached u) : reached v := by
  obtain ⟨es, h⟩ := h
  induction h with
  | nil => exact hu
  | cons he _ ih => exact ih (hedges _ he hu)

/-- A cycle that can be reached contains a reported edge. -/
theorem exists_mem_loopHeaders_of_cycle (hreach : g.Leads g.entry n) (hcycle : g.Walk n es n)
    (hne : es ≠ []) : ∃ e ∈ es, ⟨e.target, e.source⟩ ∈ g.loopHeaders := by
  -- the ranks are those of the search that reported the edges
  obtain ⟨reached, rank, hentry, hedges⟩ := g.exists_rank_of_edges
  have hn : reached n := hreach.reached (fun e he hsource => (hedges e he hsource).1) hentry
  by_contra hnone
  -- otherwise the rank would be higher after the cycle than before it
  have hrank : rank n + es.length ≤ rank n := by
    apply hcycle.rank_le hedges hn
    intro e he hback
    exact hnone ⟨e, he, hback⟩
  have hpos : 0 < es.length := List.length_pos_iff.mpr hne
  omega

/-! ## §4 What the loop headers are -/

/-- The back edges are the edges that are reported. -/
private theorem isBackEdge_iff {H : List LoopHeader} {e : Edge} :
    isBackEdge H e = true ↔ ⟨e.target, e.source⟩ ∈ H := by
  rw [isBackEdge, List.any_eq_true]
  constructor
  · rintro ⟨⟨header, source⟩, hmem, hedge⟩
    obtain ⟨rfl, rfl⟩ := of_decide_eq_true hedge
    exact hmem
  · intro hmem
    exact ⟨_, hmem, decide_eq_true ⟨rfl, rfl⟩⟩

/-- One step from a node that can be reached, by an edge that does not close a loop. -/
def Forward (g : FlowGraph) (u v : Node) : Prop :=
  g.Leads g.entry u ∧ ∃ e ∈ g.edges, isBackEdge g.loopHeaders e = false ∧ e.source = u ∧
    e.target = v

/-- Forward steps make up a walk without reported edges. -/
theorem exists_walk_of_transGen (h : TransGen g.Forward u v) :
    ∃ es, es ≠ [] ∧ g.Leads g.entry u ∧ g.Walk u es v ∧
      ∀ e ∈ es, isBackEdge g.loopHeaders e = false := by
  -- the first step comes first, since a walk is extended at its start
  induction h using TransGen.head_induction_on with
  | single h =>
    obtain ⟨hreach, e, he, hforward, rfl, rfl⟩ := h
    exact ⟨[e], List.cons_ne_nil _ _, hreach, .cons he (.nil _),
      List.forall_mem_singleton.mpr hforward⟩
  | head h _ ih =>
    obtain ⟨hreach, e, he, hforward, rfl, rfl⟩ := h
    obtain ⟨es, -, -, hwalk, hes⟩ := ih
    exact ⟨e :: es, List.cons_ne_nil _ _, hreach, .cons he hwalk,
      List.forall_mem_cons.mpr ⟨hforward, hes⟩⟩

/-- The loop headers of a graph are the places at which its cycles are cut. Each of them is reported
for an edge to it that closes a loop: the entry leads to the header, and the header leads back to
the source of the edge. Each cycle at a node to which the entry leads contains a reported edge, and
so it passes through a loop header. Without the reported edges, the nodes that can be reached have
no cycle at all. -/
theorem loopHeaders_cut_cycles (g : FlowGraph) :
    (∀ h ∈ g.loopHeaders, (∃ e ∈ g.edges, e.source = h.source ∧ e.target = h.header) ∧
      g.Leads g.entry h.header ∧ g.Leads h.header h.source) ∧
    (∀ n es, g.Leads g.entry n → es ≠ [] → g.Walk n es n →
      ∃ e ∈ es, ⟨e.target, e.source⟩ ∈ g.loopHeaders ∧
        isLoopHeader g.loopHeaders e.target = true) ∧
    ∀ n, ¬ TransGen g.Forward n n := by
  refine ⟨?_, ?_, ?_⟩
  · intro h hmem
    obtain ⟨hedge, hloop⟩ := closes_of_mem_search (threaded_start g) h hmem
    exact ⟨mem_successors.mp hedge, hloop⟩
  · intro n es hreach hne hcycle
    obtain ⟨e, he, hback⟩ := exists_mem_loopHeaders_of_cycle hreach hcycle hne
    exact ⟨e, he, hback, isLoopHeader_of_mem hback⟩
  · intro n hcycle
    obtain ⟨es, hne, hreach, hwalk, hforward⟩ := exists_walk_of_transGen hcycle
    obtain ⟨e, he, hback⟩ := exists_mem_loopHeaders_of_cycle hreach hwalk hne
    have hnot := hforward e he
    rw [isBackEdge_iff.mpr hback] at hnot
    cases hnot

/-- A loop of the statements 1 and 2 that can be entered at either of them. -/
def crossing : List Statement :=
  [⟨.branch .ge (.const 0) (.const 0), some 2⟩, ⟨.branch .ge (.const 0) (.const 0), some 3⟩,
    ⟨.goto, some 1⟩, ⟨.ret, none⟩]

/-- The statements of `crossing`, linked. -/
def crossingLoop : FlowGraph where
  nodes := [.branch .ge (.const 0) (.const 0), .branch .ge (.const 0) (.const 0), .goto, .ret]
  edges := [⟨0, 2, .branch⟩, ⟨0, 1, .fall⟩, ⟨1, 3, .branch⟩, ⟨1, 2, .fall⟩, ⟨2, 1, .branch⟩]
  nonempty := by decide
  closed := by decide

private theorem loopHeaders_crossingLoop : crossingLoop.loopHeaders = [⟨2, 1⟩] := by
  simp [crossingLoop]

/-- The loop is reported at the node by which the search enters it. The cycle that starts at its
other node contains the reported edge. -/
theorem loopHeaders_cut_cycles_crossingLoop :
    build crossing = .ok crossingLoop ∧ crossingLoop.loopHeaders = [⟨2, 1⟩] ∧
    crossingLoop.Leads 0 2 ∧ crossingLoop.Leads 2 1 ∧
    crossingLoop.Walk 1 [⟨1, 2, .fall⟩, ⟨2, 1, .branch⟩] 1 ∧
    ∃ e ∈ [(⟨1, 2, .fall⟩ : Edge), ⟨2, 1, .branch⟩],
      ⟨e.target, e.source⟩ ∈ crossingLoop.loopHeaders := by
  obtain ⟨hclose, hcut, -⟩ := loopHeaders_cut_cycles crossingLoop
  have hheader : ⟨2, 1⟩ ∈ crossingLoop.loopHeaders := by
    rw [loopHeaders_crossingLoop]
    exact List.mem_singleton_self _
  obtain ⟨-, hreach, hback⟩ := hclose _ hheader
  have hcycle : crossingLoop.Walk 1 [⟨1, 2, .fall⟩, ⟨2, 1, .branch⟩] 1 := by
    apply Walk.cons (e := ⟨1, 2, .fall⟩) (by decide)
    apply Walk.cons (e := ⟨2, 1, .branch⟩) (by decide)
    exact .nil 1
  -- the cycle starts at the node that is not the header
  obtain ⟨e, he, hmem, -⟩ := hcut 1 _ (hreach.trans hback) (by decide) hcycle
  exact ⟨rfl, loopHeaders_crossingLoop, hreach, hback, hcycle, e, he, hmem⟩

end FlowGraph

end RangeGuard
