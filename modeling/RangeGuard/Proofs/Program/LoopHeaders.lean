import Mathlib.Data.List.Nodup
import Mathlib.Data.List.Perm.Basic
import RangeGuard.Program.Loops

/-!
# Loop headers cut every cycle

The loop headers of a graph are the targets of the edges that lead back to the current path of a
depth-first search. Listing the nodes in the order in which the search is done with them, the latest
first, puts the source of every other edge before its target. So whatever can be reached from the
entry without passing through a loop header again is finite in depth, also in graphs whose loops are
nested or have several entries.

## The invariant

Every node is in one of three places: it has not been seen, it is on the path, or the search is done
with it (`FlowGraph.SearchInv`). A node on the path still has some successors to explore, and the
others are accounted for (`FlowGraph.Explored`): they are done, they stand further inside on the
path and will be done earlier, or the edge to them was reported. When a node has no successors left
to explore, it can therefore be put in front of the nodes that are done.

The set `H` of reported edges is a parameter of the invariant and fixed from the start, since what
the search reports later has to count for nodes that are done already.
-/

namespace RangeGuard

namespace FlowGraph

variable {g : FlowGraph} {H : List LoopHeader} {unseen done order : List Node} {path : List Frame}
  {u v : Node}

/-- The successors of a node are the targets of its edges. -/
theorem mem_successors : v ∈ g.successors u ↔ ∃ e ∈ g.edges, e.source = u ∧ e.target = v := by
  simp only [successors, List.mem_map, List.mem_filter, decide_eq_true_eq, and_assoc]

private theorem successor_lt_size (h : v ∈ g.successors u) : v < g.size := by
  obtain ⟨e, he, -, rfl⟩ := mem_successors.mp h
  exact (g.closed e he).2

/-! ## §1 The order in which nodes are done -/

/-- Nodes that the search is done with, the latest first: each successor of a node was done before
it, or the edge to it is in `H`. -/
def Finished (g : FlowGraph) (H : List LoopHeader) : List Node → Prop
  | [] => True
  | u :: rest => (∀ v ∈ g.successors u, v ∈ rest ∨ ⟨v, u⟩ ∈ H) ∧ g.Finished H rest

/-- In the finished order, an edge that is not in `H` leads onward. -/
theorem Finished.idxOf_lt (h : g.Finished H order) (hnodup : order.Nodup) (hu : u ∈ order)
    (hv : v ∈ g.successors u) :
    ⟨v, u⟩ ∈ H ∨ (v ∈ order ∧ order.idxOf u < order.idxOf v) := by
  induction order with
  | nil => cases hu
  | cons w rest ih =>
    obtain ⟨hw, hrest⟩ := List.nodup_cons.mp hnodup
    -- the first node stands before all others, and those keep their order
    have hlater : ∀ x ∈ rest, (w :: rest).idxOf x = rest.idxOf x + 1 := fun x hx =>
      List.idxOf_cons_ne _ fun hwx => hw (hwx ▸ hx)
    rcases List.mem_cons.mp hu with rfl | hu
    · refine (h.1 v hv).symm.imp_right fun hmem => ⟨List.mem_cons_of_mem _ hmem, ?_⟩
      rw [List.idxOf_cons_self, hlater v hmem]
      exact Nat.succ_pos _
    · refine (ih h.2 hrest hu).imp_right fun ⟨hmem, hlt⟩ => ⟨List.mem_cons_of_mem _ hmem, ?_⟩
      rw [hlater u hu, hlater v hmem]
      exact Nat.succ_lt_succ hlt

/-! ## §2 The invariant of the search -/

/-- What is left of the nodes on the path, the innermost first: each successor is still to be
explored, or is done, or stands further inside, or the edge to it is in `H`. The list `closed` has
the nodes that are done or stand further inside. -/
def Explored (g : FlowGraph) (H : List LoopHeader) : List Node → List Frame → Prop
  | _, [] => True
  | closed, ⟨n, pending⟩ :: outer =>
    (∀ v ∈ pending, v < g.size) ∧
    (∀ v ∈ g.successors n, v ∈ pending ∨ v ∈ closed ∨ ⟨v, n⟩ ∈ H) ∧
    g.Explored H (n :: closed) outer

/-- With more nodes done, no less is accounted for. -/
theorem Explored.mono {closed closed' : List Node} (hsub : closed ⊆ closed')
    (h : g.Explored H closed path) : g.Explored H closed' path := by
  induction path generalizing closed closed' with
  | nil => trivial
  | cons frame outer ih =>
    obtain ⟨hpending, hsuccessors, houter⟩ := h
    refine ⟨hpending, fun v hv => ?_, ih (List.cons_subset_cons _ hsub) houter⟩
    exact (hsuccessors v hv).imp_right fun h => h.imp_left fun hclosed => hsub hclosed

/-- Every node is unseen, on the path or done, and what is on the path or done is in order. -/
structure SearchInv (g : FlowGraph) (H : List LoopHeader) (path : List Frame)
    (unseen done : List Node) : Prop where
  nodes : (unseen ++ (path.map Frame.node ++ done)).Perm (List.range g.size)
  explored : g.Explored H done path
  finished : g.Finished H done

/-- At the start the entry is on the path, and all other nodes are unseen. -/
private theorem searchInv_start (g : FlowGraph) (H : List LoopHeader) (hsize : g.entry < g.size) :
    g.SearchInv H [⟨g.entry, g.successors g.entry⟩] ((List.range g.size).erase g.entry) [] where
  nodes := List.perm_append_comm.trans (List.perm_cons_erase (List.mem_range.mpr hsize)).symm
  explored := ⟨fun _ hv => successor_lt_size hv, fun _ hv => .inl hv, trivial⟩
  finished := trivial

namespace SearchInv

variable {n t : Node} {pending : List Node} {outer : List Frame}

/-- A node without successors left is done. -/
theorem finish (h : g.SearchInv H (⟨n, []⟩ :: outer) unseen done) :
    g.SearchInv H outer unseen (n :: done) where
  nodes := (List.Perm.append_left unseen List.perm_middle).trans h.nodes
  explored := h.explored.2.2
  finished := ⟨fun v hv => (h.explored.2.1 v hv).resolve_left List.not_mem_nil, h.finished⟩

/-- An unseen successor is explored next. -/
theorem enter (h : g.SearchInv H (⟨n, t :: pending⟩ :: outer) unseen done) (ht : t ∈ unseen) :
    g.SearchInv H (⟨t, g.successors t⟩ :: ⟨n, pending⟩ :: outer) (unseen.erase t) done where
  nodes := by
    refine List.Perm.trans ?_ h.nodes
    exact List.perm_middle.trans ((List.perm_cons_erase ht).symm.append_right _)
  explored := by
    obtain ⟨hpending, hsuccessors, houter⟩ := h.explored
    refine ⟨fun _ hv => successor_lt_size hv, fun _ hv => .inl hv,
      fun v hv => hpending v (List.mem_cons_of_mem t hv), fun v hv => ?_,
      houter.mono (List.cons_subset_cons n (List.subset_cons_self t done))⟩
    -- the successor that is entered stands further inside from now on
    rcases hsuccessors v hv with hv | hv | hv
    · rcases List.mem_cons.mp hv with rfl | hv
      · exact .inr (.inl List.mem_cons_self)
      · exact .inl hv
    · exact .inr (.inl (List.mem_cons_of_mem t hv))
    · exact .inr (.inr hv)
  finished := h.finished

/-- A successor that is done, or the edge to which is in `H`, needs no exploring. -/
theorem skip (h : g.SearchInv H (⟨n, t :: pending⟩ :: outer) unseen done)
    (ht : t ∈ done ∨ ⟨t, n⟩ ∈ H) : g.SearchInv H (⟨n, pending⟩ :: outer) unseen done where
  nodes := h.nodes
  explored := by
    obtain ⟨hpending, hsuccessors, houter⟩ := h.explored
    refine ⟨fun v hv => hpending v (List.mem_cons_of_mem t hv), fun v hv => ?_, houter⟩
    rcases hsuccessors v hv with hv | hv
    · rcases List.mem_cons.mp hv with rfl | hv
      · exact .inr ht
      · exact .inl hv
    · exact .inr hv
  finished := h.finished

/-- A successor that is neither unseen nor on the path is done. -/
theorem mem_done (h : g.SearchInv H (⟨n, t :: pending⟩ :: outer) unseen done) (ht : t ∉ unseen)
    (hpath : ¬ (t = n ∨ ∃ frame ∈ outer, frame.node = t)) : t ∈ done := by
  -- the successor is a node of the graph, so it is in one of the three places
  have hmem := h.nodes.mem_iff.mpr (List.mem_range.mpr (h.explored.1 t List.mem_cons_self))
  simp only [List.map_cons, List.cons_append, List.mem_append, List.mem_cons, List.mem_map] at hmem
  rcases hmem with hmem | hmem | hmem | hmem
  · exact absurd hmem ht
  · exact absurd (.inl hmem) hpath
  · exact absurd (.inr hmem) hpath
  · exact hmem

end SearchInv

/-- From a state that satisfies the invariant, the search ends with all nodes of the path in an
order that extends the nodes that were done. -/
theorem exists_order_of_search (hH : ∀ h ∈ g.search path unseen, h ∈ H)
    (hinv : g.SearchInv H path unseen done) :
    ∃ order, g.Finished H order ∧ order.Nodup ∧ done ⊆ order ∧ (∀ f ∈ path, f.node ∈ order) ∧
      ∀ h ∈ g.search path unseen, h.header ∈ order := by
  fun_induction search g path unseen generalizing done with
  | case1 unseen =>
    -- the path is empty, so the nodes that are done are the order
    have hnodup : (unseen ++ done).Nodup := hinv.nodes.nodup_iff.mpr List.nodup_range
    exact ⟨done, hinv.finished, hnodup.of_append_right, List.Subset.refl done, nofun, nofun⟩
  | case2 unseen n outer ih =>
    obtain ⟨order, hfinished, hnodup, hdone, hpath, hheaders⟩ := ih hH hinv.finish
    rw [List.cons_subset] at hdone
    exact ⟨order, hfinished, hnodup, hdone.2, List.forall_mem_cons.mpr ⟨hdone.1, hpath⟩, hheaders⟩
  | case3 unseen n t pending outer ht ih =>
    obtain ⟨order, hfinished, hnodup, hdone, hpath, hheaders⟩ := ih hH (hinv.enter ht)
    rw [List.forall_mem_cons, List.forall_mem_cons] at hpath
    exact ⟨order, hfinished, hnodup, hdone, List.forall_mem_cons.mpr hpath.2, hheaders⟩
  | case4 unseen n t pending outer ht hback ih =>
    rw [List.forall_mem_cons] at hH
    obtain ⟨order, hfinished, hnodup, hdone, hpath, hheaders⟩ := ih hH.2 (hinv.skip (.inr hH.1))
    rw [List.forall_mem_cons] at hpath
    refine ⟨order, hfinished, hnodup, hdone, List.forall_mem_cons.mpr hpath,
      List.forall_mem_cons.mpr ⟨?_, hheaders⟩⟩
    -- a reported header stands on the path
    rcases hback with rfl | ⟨frame, hframe, rfl⟩
    · exact hpath.1
    · exact hpath.2 frame hframe
  -- neither unseen nor on the path, so the search is done with it
  | case5 unseen n t pending outer ht hback ih =>
    obtain ⟨order, hfinished, hnodup, hdone, hpath, hheaders⟩ :=
      ih hH (hinv.skip (.inl (hinv.mem_done ht hback)))
    rw [List.forall_mem_cons] at hpath
    exact ⟨order, hfinished, hnodup, hdone, List.forall_mem_cons.mpr hpath, hheaders⟩

/-! ## §3 Ranks -/

/-- The target of a reported edge is a loop header. -/
theorem isLoopHeader_of_mem {h : LoopHeader} (hmem : h ∈ H) : isLoopHeader H h.header = true :=
  List.any_eq_true.mpr ⟨h, hmem, decide_eq_true rfl⟩

/-- The nodes that can be reached from the entry have ranks that every edge increases, unless it is
reported as closing a loop. -/
theorem exists_rank_of_edges (g : FlowGraph) : ∃ (reached : Node → Prop) (rank : Node → Nat),
    reached g.entry ∧ ∀ e ∈ g.edges, reached e.source → reached e.target ∧
      (⟨e.target, e.source⟩ ∈ g.loopHeaders ∨ rank e.source < rank e.target) := by
  have hsize : g.entry < g.size := List.length_pos_iff.mpr g.nonempty
  obtain ⟨order, hfinished, hnodup, -, hpath, hheaders⟩ :=
    exists_order_of_search (H := g.loopHeaders) (fun _ h => h) (searchInv_start g _ hsize)
  refine ⟨(· ∈ order), order.idxOf, hpath _ List.mem_cons_self, fun e he hsource => ?_⟩
  -- the rank of a node is its place in the order
  rcases hfinished.idxOf_lt hnodup hsource (mem_successors.mpr ⟨e, he, rfl, rfl⟩) with
    hback | ⟨htarget, hlt⟩
  · exact ⟨hheaders _ hback, .inl hback⟩
  · exact ⟨htarget, .inr hlt⟩

/-- The nodes that can be reached from the entry have ranks that every edge increases, unless it
leads to a loop header. -/
theorem exists_rank (g : FlowGraph) : ∃ (reached : Node → Prop) (rank : Node → Nat),
    reached g.entry ∧ ∀ e ∈ g.edges, reached e.source → reached e.target ∧
      (isLoopHeader g.loopHeaders e.target = true ∨ rank e.source < rank e.target) := by
  obtain ⟨reached, rank, hentry, hedges⟩ := g.exists_rank_of_edges
  refine ⟨reached, rank, hentry, fun e he hsource => ?_⟩
  exact (hedges e he hsource).imp_right fun h => h.imp_left isLoopHeader_of_mem

end FlowGraph

end RangeGuard
