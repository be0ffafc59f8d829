import RangeGuard.Proofs.Program.Linking

/-!
# The edges of linked statements

Linking is exact. It fails only for the reasons that are stated, at the first statement that has
one, and otherwise the edges are those of the statements, each made once: a jump to its target, and
a step to the next statement. A branch to the next statement has two edges to it, which differ in
kind. At each node the edges that leave it and those that enter it are listed by their positions.

## Organisation

- *The tables* (§1): one step of the loop that fills them, then the whole loop, then the rows.
- *Statements* (§2, §3): what holds of the edges of one statement is said first, and the statements
  of a list follow one by one. That no edge is made twice comes from the order in which they are
  made (`Edge.Precedes`).
- *Graphs* (§4 to §6): building is linking from node zero on, so its theorems are those of a list.
-/

namespace RangeGuard

namespace Statement

/-- Why the statement at node `i` of `n` statements cannot be linked: it is a jump without a target,
or one whose target is not a statement. -/
inductive Unlinkable (n : Nat) (i : Node) (s : Statement) : LinkError → Prop where
  | missingTarget (hjump : s.instruction.isJump) (htarget : s.jump = none) :
      Unlinkable n i s (.missingTarget i)
  | targetOutOfRange {t : Node} (hjump : s.instruction.isJump) (htarget : s.jump = some t)
    (ht : n ≤ t) :
      Unlinkable n i s (.targetOutOfRange i t)

end Statement

/-- The order in which edges are made: by their sources, and at one source the jump first. -/
def Edge.Precedes (a b : Edge) : Prop :=
  a.source < b.source ∨ a.source = b.source ∧ a.kind = .branch ∧ b.kind = .fall

/-- The order is strict, so what is in order has no duplicates. -/
theorem Edge.Precedes.ne {a b : Edge} (h : a.Precedes b) : a ≠ b := by
  rintro rfl
  rcases h with hlt | ⟨-, hbranch, hfall⟩
  · exact Nat.lt_irrefl _ hlt
  · rw [hbranch] at hfall
    cases hfall

/-! ## §1 The tables of edges

The two tables are filled in one loop over the edges. One step of it appends to one row of each
table, and the loop as a whole leaves in a row the edges that were entered there. -/

namespace Adjacency

variable {n : Nat}

/-- One step: the row of the edge's node gets the edge, the others stay as they are. -/
theorem getD_enter (node : Edge → Node) {rows : List (List Nat)} (edge : Edge × Nat)
    (hn : n < rows.length) :
    (enter node rows edge).getD n [] =
      rows.getD n [] ++ if node edge.1 = n then [edge.2] else [] := by
  simp only [enter, List.getD_eq_getElem?_getD, List.getElem?_modify, List.getElem?_eq_getElem hn]
  split <;> simp

private theorem length_enter (node : Edge → Node) (rows : List (List Nat)) (edge : Edge × Nat) :
    (enter node rows edge).length = rows.length := by
  simp [enter]

/-- The whole loop: a row gets the edges of its node, in their order. -/
theorem getD_foldl_enter (node : Edge → Node) (edges : List (Edge × Nat))
    {rows : List (List Nat)} (hn : n < rows.length) :
    (edges.foldl (enter node) rows).getD n [] =
      rows.getD n [] ++ (edges.filter fun p => node p.1 = n).map (·.2) := by
  induction edges generalizing rows with
  | nil => simp
  | cons edge edges ih =>
    rw [List.foldl_cons, ih (by rwa [length_enter]), getD_enter node edge hn, List.append_assoc]
    -- the first edge comes before those of the loop that follows
    by_cases hedge : node edge.1 = n <;> simp [hedge]

private theorem length_foldl_enter (node : Edge → Node) (edges : List (Edge × Nat))
    (rows : List (List Nat)) : (edges.foldl (enter node) rows).length = rows.length := by
  induction edges generalizing rows with
  | nil => rfl
  | cons edge edges ih => rw [List.foldl_cons, ih, length_enter]

/-- The loop fills the two tables independently of each other. -/
theorem foldl_add (edges : List (Edge × Nat)) (a : Adjacency) :
    edges.foldl add a =
      ⟨edges.foldl (enter (·.source)) a.outgoing, edges.foldl (enter (·.target)) a.incoming⟩ := by
  induction edges generalizing a with
  | nil => rfl
  | cons edge edges ih => exact ih _

/-- A table for `size` nodes has at each number the positions of the edges there. A number that is
no node has no row, and no edge either. -/
theorem getD_table (node : Edge → Node) {edges : List Edge} {size : Nat}
    (hnode : ∀ e ∈ edges, node e < size) (n : Node) :
    (edges.zipIdx.foldl (enter node) (List.replicate size [])).getD n [] =
      (edges.zipIdx.filter fun p => node p.1 = n).map (·.2) := by
  by_cases hn : n < size
  · rw [getD_foldl_enter node edges.zipIdx (by rwa [List.length_replicate])]
    simp [List.getD_eq_getElem?_getD, hn]
  · -- beyond the table there is no row, and since all nodes of edges are below `size` no edge
    have hrow : (edges.zipIdx.foldl (enter node) (List.replicate size [])).length ≤ n := by
      rw [length_foldl_enter, List.length_replicate]
      exact Nat.not_lt.mp hn
    have hnone : (edges.zipIdx.filter fun p => node p.1 = n) = [] := by
      refine List.filter_eq_nil_iff.mpr fun p hp => ?_
      have hedge := hnode p.1 (List.fst_mem_of_mem_zipIdx hp)
      simp only [decide_eq_true_eq]
      rintro rfl
      exact hn hedge
    rw [List.getD_eq_getElem?_getD, List.getElem?_eq_none hrow, Option.getD_none, hnone,
      List.map_nil]

end Adjacency

namespace FlowGraph

variable {n i t : Nat} {s : Statement} {statements : List Statement} {es : List Edge} {e : Edge}
  {fault : LinkError} {g : FlowGraph}

/-! ## §2 One statement -/

/-- The target of a jump is missing or out of range, or there is one. -/
private theorem jumpTarget_eq_error_iff (hjump : s.instruction.isJump) :
    jumpTarget n i s = .error fault ↔ s.Unlinkable n i fault := by
  constructor
  · intro h
    unfold jumpTarget at h
    split at h
    · rename_i htarget
      obtain rfl := Except.error.inj h
      exact .missingTarget hjump htarget
    · rename_i t htarget
      split at h
      · cases h
      · obtain rfl := Except.error.inj h
        exact .targetOutOfRange hjump htarget (Nat.not_lt.mp ‹_›)
  · intro h
    cases h with
    | missingTarget _ htarget => simp [jumpTarget, htarget]
    | targetOutOfRange _ htarget ht => simp [jumpTarget, htarget, Nat.not_lt.mpr ht]

/-- The edges of a statement fail with exactly the reasons that are stated. -/
private theorem exits_eq_error_iff : exits n i s = .error fault ↔ s.Unlinkable n i fault := by
  by_cases hjump : s.instruction.isJump
  · -- only the target of a jump can be at fault
    rw [exits_of_isJump hjump, bind_eq_error_iff, jumpTarget_eq_error_iff hjump]
    simp [pure, Except.pure]
  · rw [exits_of_not_isJump hjump]
    constructor
    · exact nofun
    · rintro (⟨h, -⟩ | ⟨h, -⟩) <;> exact absurd h hjump

/-- The edges of one statement are made in order, the jump first. -/
private theorem pairwise_exits (h : exits n i s = .ok es) : es.Pairwise Edge.Precedes := by
  have hfalls : (fallsFrom n i s).Pairwise Edge.Precedes := by
    by_cases hfalls : s.instruction.falls <;> by_cases hnext : i + 1 < n <;>
      simp [fallsFrom, fallEdges, hfalls, hnext]
  by_cases hjump : s.instruction.isJump
  · rw [exits_of_isJump hjump] at h
    obtain ⟨t, -, h⟩ := bind_eq_ok_iff.mp h
    obtain rfl := Except.ok.inj h
    refine List.pairwise_cons.mpr ⟨fun e he => ?_, hfalls⟩
    obtain ⟨-, -, rfl⟩ := mem_fallsFrom.mp he
    exact .inr ⟨rfl, rfl, rfl⟩
  · rw [exits_of_not_isJump hjump] at h
    obtain rfl := Except.ok.inj h
    exact hfalls

/-- Nothing is wrong with a statement whose edges could be made. -/
theorem linkable_of_exits (h : exits n i s = .ok es) : s.Linkable n := by
  have hnone : ∀ fault, ¬s.Unlinkable n i fault := by
    intro fault hfault
    rw [exits_eq_error_iff.mpr hfault] at h
    cases h
  intro hjump
  cases htarget : s.jump with
  | none => exact absurd (.missingTarget hjump htarget) (hnone _)
  | some t => exact ⟨t, Nat.not_le.mp fun ht => hnone _ (.targetOutOfRange hjump htarget ht), rfl⟩

/-! ## §3 A list of statements -/

/-- The first statement that cannot be linked decides. -/
theorem link_eq_error_iff : link n i statements = .error fault ↔
    ∃ k s, statements[k]? = some s ∧ s.Unlinkable n (i + k) fault ∧
      ∀ s' ∈ statements.take k, s'.Linkable n := by
  induction statements generalizing i with
  | nil => simp [link]
  | cons first rest ih =>
    rw [link, bind_eq_error_iff, exits_eq_error_iff]
    simp only [bind_eq_error_iff, ih]
    -- statement `k` of the rest is statement `k + 1` here, and its node is the same
    constructor
    · rintro (hfirst | ⟨here, hhere, ⟨k, s, hs, hfault, hbefore⟩ | ⟨later, -, h⟩⟩)
      · exact ⟨0, first, rfl, hfirst, by simp⟩
      · refine ⟨k + 1, s, hs, ?_, ?_⟩
        · rwa [Nat.add_right_comm] at hfault
        · rw [List.take_succ_cons, List.forall_mem_cons]
          exact ⟨linkable_of_exits hhere, hbefore⟩
      · cases h
    · rintro ⟨k, s, hs, hfault, hbefore⟩
      cases k with
      | zero =>
        obtain rfl := Option.some.inj hs
        exact .inl hfault
      | succ k =>
        -- the first statement is one of those before it, so its edges are made
        rw [List.take_succ_cons, List.forall_mem_cons] at hbefore
        obtain ⟨here, hhere⟩ := exists_exits hbefore.1 i
        rw [← Nat.add_assoc, Nat.add_right_comm] at hfault
        exact .inr ⟨here, hhere, .inl ⟨k, s, hs, hfault, hbefore.2⟩⟩

/-- If linking succeeds, nothing is wrong with any statement. -/
private theorem linkable_of_link (h : link n i statements = .ok es) :
    ∀ s ∈ statements, s.Linkable n := by
  induction statements generalizing i es with
  | nil => exact List.forall_mem_nil _
  | cons first rest ih =>
    obtain ⟨here, hhere, h⟩ := bind_eq_ok_iff.mp h
    obtain ⟨later, hlater, -⟩ := bind_eq_ok_iff.mp h
    exact List.forall_mem_cons.mpr ⟨linkable_of_exits hhere, ih hlater⟩

/-- Edges are made in the order of their sources, so none is made twice. -/
theorem pairwise_link (h : link n i statements = .ok es) : es.Pairwise Edge.Precedes := by
  induction statements generalizing i es with
  | nil =>
    obtain rfl := Except.ok.inj h
    exact .nil
  | cons first rest ih =>
    obtain ⟨here, hhere, h⟩ := bind_eq_ok_iff.mp h
    obtain ⟨later, hlater, h⟩ := bind_eq_ok_iff.mp h
    obtain rfl := Except.ok.inj h
    -- the rest is linked from the next node on
    refine List.pairwise_append.mpr ⟨pairwise_exits hhere, ih hlater, fun a ha b hb => .inl ?_⟩
    rw [((mem_exits hhere).mp ha).source_eq]
    exact le_source_of_mem_link hlater b hb

/-! ## §4 Graphs -/

/-- When building fails, and with what. -/
private theorem build_eq_error_iff : build statements = .error fault ↔
    statements = [] ∧ fault = .emptyBody ∨
    ∃ i s, statements[i]? = some s ∧ s.Unlinkable statements.length i fault ∧
      ∀ s' ∈ statements.take i, s'.Linkable statements.length := by
  -- an empty list of statements is the only fault that linking itself does not find
  have hlink : build statements = .error fault ↔
      statements = [] ∧ fault = .emptyBody ∨ link statements.length 0 statements =
        .error fault := by
    unfold build
    split
    · rename_i hnil
      simp [hnil, link, eq_comm]
    · split <;> simp_all
  simpa only [link_eq_error_iff, Nat.zero_add] using hlink

/-- When building succeeds. -/
private theorem build_eq_ok_iff : (∃ g, build statements = .ok g) ↔
    statements ≠ [] ∧ ∀ s ∈ statements, s.Linkable statements.length := by
  refine ⟨fun ⟨g, hg⟩ => ⟨?_, linkable_of_link (of_build hg).2⟩,
    fun ⟨hne, hs⟩ => exists_build hne hs⟩
  rintro rfl
  cases hg

/-- The edges of a graph are those of its statements. -/
private theorem mem_edges_of_build (h : build statements = .ok g) :
    e ∈ g.edges ↔ ∃ s, statements[e.source]? = some s ∧ s.HasEdge statements.length e.source e := by
  -- linking starts at node zero, so a statement stands at the source of its edges
  rw [mem_link (of_build h).2]
  constructor
  · rintro ⟨k, s, hs, he⟩
    rw [Nat.zero_add] at he
    rw [he.source_eq]
    exact ⟨s, hs, he⟩
  · rintro ⟨s, hs, he⟩
    exact ⟨e.source, s, hs, by rwa [Nat.zero_add]⟩

/-! ## §5 The edges at a node -/

/-- The positions at a node, without the table: those of the edges that leave it. -/
theorem outgoing_eq_filter (g : FlowGraph) (n : Node) :
    g.outgoing n = (g.edges.zipIdx.filter fun p => p.1.source = n).map (·.2) := by
  rw [outgoing, g.adjacency_eq, Adjacency.ofEdges, Adjacency.foldl_add]
  exact Adjacency.getD_table (·.source) (fun e he => (g.closed e he).1) n

/-- The same for the edges that enter it. -/
theorem incoming_eq_filter (g : FlowGraph) (n : Node) :
    g.incoming n = (g.edges.zipIdx.filter fun p => p.1.target = n).map (·.2) := by
  rw [incoming, g.adjacency_eq, Adjacency.ofEdges, Adjacency.foldl_add]
  exact Adjacency.getD_table (·.target) (fun e he => (g.closed e he).2) n

/-- The positions of the edges that have one of their nodes in common. -/
theorem mem_positions (node : Edge → Node) {edges : List Edge} {k : Nat} :
    k ∈ (edges.zipIdx.filter fun p => node p.1 = n).map (·.2) ↔
      ∃ edge, edges[k]? = some edge ∧ node edge = n := by
  simp only [List.mem_map, List.mem_filter, decide_eq_true_eq]
  constructor
  · rintro ⟨⟨edge, k⟩, ⟨hmem, hedge⟩, rfl⟩
    exact ⟨edge, List.mk_mem_zipIdx_iff_getElem?.mp hmem, hedge⟩
  · rintro ⟨edge, hget, hedge⟩
    exact ⟨(edge, k), ⟨List.mk_mem_zipIdx_iff_getElem?.mpr hget, hedge⟩, rfl⟩

theorem mem_outgoing {k : Nat} :
    k ∈ g.outgoing n ↔ ∃ edge, g.edges[k]? = some edge ∧ edge.source = n := by
  rw [outgoing_eq_filter]
  exact mem_positions (·.source)

theorem mem_incoming {k : Nat} :
    k ∈ g.incoming n ↔ ∃ edge, g.edges[k]? = some edge ∧ edge.target = n := by
  rw [incoming_eq_filter]
  exact mem_positions (·.target)

/-- Positions that are picked from a list of edges increase. -/
theorem pairwise_positions (edges : List Edge) (p : Edge × Nat → Bool) :
    ((edges.zipIdx.filter p).map (·.2)).Pairwise (· < ·) := by
  -- the numbers of a list increase, and picking some of them keeps the order
  have hall : (edges.zipIdx.map (·.2)).Pairwise (· < ·) := by
    rw [List.zipIdx_map_snd]
    exact List.pairwise_lt_range'
  exact hall.sublist (List.filter_sublist.map _)

private theorem pairwise_outgoing (g : FlowGraph) (n : Node) : (g.outgoing n).Pairwise (· < ·) := by
  rw [outgoing_eq_filter]
  exact pairwise_positions g.edges _

private theorem pairwise_incoming (g : FlowGraph) (n : Node) : (g.incoming n).Pairwise (· < ·) := by
  rw [incoming_eq_filter]
  exact pairwise_positions g.edges _

/-! ## §6 What linking does -/

/-- Statements can be linked if there are some and every jump among them has one of them as its
target; otherwise there are none, or the first statement that is at fault decides. The edges are
those of the statements, each once, and the lists of positions at a node give exactly the edges that
leave it and that enter it, in order. -/
theorem build_exact (statements : List Statement) :
    ((∃ g, build statements = .ok g) ↔
      statements ≠ [] ∧ ∀ s ∈ statements, s.Linkable statements.length) ∧
    (∀ fault, build statements = .error fault ↔
      statements = [] ∧ fault = .emptyBody ∨
      ∃ i s, statements[i]? = some s ∧ s.Unlinkable statements.length i fault ∧
        ∀ s' ∈ statements.take i, s'.Linkable statements.length) ∧
    ∀ g, build statements = .ok g →
      g.nodes = statements.map (·.instruction) ∧ g.edges.Nodup ∧
      (∀ e, e ∈ g.edges ↔
        ∃ s, statements[e.source]? = some s ∧ s.HasEdge statements.length e.source e) ∧
      ∀ n, (g.outgoing n).Pairwise (· < ·) ∧ (g.incoming n).Pairwise (· < ·) ∧
        (∀ k, k ∈ g.outgoing n ↔ ∃ e, g.edges[k]? = some e ∧ e.source = n) ∧
        ∀ k, k ∈ g.incoming n ↔ ∃ e, g.edges[k]? = some e ∧ e.target = n := by
  refine ⟨build_eq_ok_iff, fun fault => build_eq_error_iff,
    fun g hg => ⟨(of_build hg).1, ?_, ?_, fun n => ?_⟩⟩
  · exact (pairwise_link (of_build hg).2).imp Edge.Precedes.ne
  · exact fun e => mem_edges_of_build hg
  · exact ⟨g.pairwise_outgoing n, g.pairwise_incoming n, fun k => mem_outgoing,
      fun k => mem_incoming⟩

/-- A branch to the next statement, a jump to itself and a last statement after which control runs
out. -/
def closeJumps : List Statement :=
  [⟨.branch .lt (.var ⟨"x", .int⟩) (.const 0), some 1⟩, ⟨.goto, some 1⟩, ⟨.nop, none⟩]

/-- The graph of these statements. -/
def closeJumpsGraph : FlowGraph where
  nodes := closeJumps.map (·.instruction)
  edges := [⟨0, 1, .branch⟩, ⟨0, 1, .fall⟩, ⟨1, 1, .branch⟩]
  nonempty := by decide
  closed := by decide

/-- Two jumps that cannot be linked, for different reasons. -/
def strayJumps : List Statement := [⟨.nop, none⟩, ⟨.goto, some 7⟩, ⟨.goto, none⟩]

/-- Both edges of the branch are there, and of two faulty jumps the first one counts. -/
theorem build_exact_closeJumps :
    (build closeJumps = .ok closeJumpsGraph ∧ closeJumpsGraph.edges.Nodup ∧
      (∀ e, e ∈ closeJumpsGraph.edges ↔
        ∃ s, closeJumps[e.source]? = some s ∧ s.HasEdge closeJumps.length e.source e) ∧
      closeJumpsGraph.outgoing 0 = [0, 1] ∧ closeJumpsGraph.incoming 1 = [0, 1, 2]) ∧
    build strayJumps = .error (.targetOutOfRange 1 7) ∧ build [] = .error .emptyBody := by
  have hbuild : build closeJumps = .ok closeJumpsGraph := rfl
  obtain ⟨-, hnodup, hedges, -⟩ := (build_exact closeJumps).2.2 _ hbuild
  refine ⟨⟨hbuild, hnodup, hedges, by decide, by decide⟩, ?_, ?_⟩
  · refine ((build_exact strayJumps).2.1 _).mpr
      (.inr ⟨1, _, rfl, .targetOutOfRange rfl rfl (by decide), ?_⟩)
    exact List.forall_mem_singleton.mpr nofun
  · exact ((build_exact []).2.1 _).mpr (.inl ⟨rfl, rfl⟩)

end FlowGraph

end RangeGuard
