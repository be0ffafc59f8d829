import Mathlib.Data.List.GetD
import RangeGuard.Analysis.Invariants
import RangeGuard.Proofs.Program.Edges

/-!
# What a visit does

One visit of the iteration, said once for every argument about runs. Soundness, termination, growth
and the least solution are all proved from the statements of this file and do not open the
definitions of the iteration again.

## A visit in two steps

- *Merging.* The node gathers what was sent to it. A loop header merges that with its previous
  state, by a join or, from the threshold on, by a widening (`Iteration.merge_cases`).
- *Spreading.* If the node had been visited and its merged state stays the same, the visit leaves
  the states alone (`Iteration.Quiet`). Otherwise the node gets its merged state and the outcome is
  sent along the edges that leave it (`Iteration.Spreads`). Sending touches only those edges and the
  queue, and queues the target of every edge whose state it replaces (`Iteration.Sends`).

## Runs in any order

`Iteration.Reaches` lets the waiting nodes be visited in any order. The iteration itself, which
takes the first node in the queue each time, is one of these runs; statements about all of them show
that nothing depends on the queue discipline. `Iteration.reaches_induction` is the induction
principle: what every visit of a node of the graph preserves holds of all runs.
-/

namespace RangeGuard

/-! ## §1 Nodes of a graph -/

namespace FlowGraph

variable {g : FlowGraph} {e : Nat}

private theorem entry_lt_size (g : FlowGraph) :
    g.entry < g.size := List.length_pos_iff.mpr g.nonempty

theorem source_lt_size {edge : Edge} (h : g.edges[e]? = some edge) : edge.source < g.size :=
  (g.closed edge (List.mem_of_getElem? h)).1

end FlowGraph

/-- A table after one of its entries has been replaced. -/
theorem getD_set {α : Type} {l : List α} {i : Nat} (hi : i < l.length) (a d : α) (j : Nat) :
    (l.set i a).getD j d = if j = i then a else l.getD j d := by
  rw [List.getD_eq_getElem?_getD, List.getElem?_set]
  by_cases hji : j = i
  · subst hji
    simp [hi]
  · rw [if_neg (Ne.symm hji), if_neg hji, List.getD_eq_getElem?_getD]

namespace Iteration

variable {σ : Type} {it : Iteration σ} {run run' run'' : Run σ} {o : Outcome σ} {es es' : List Nat}
  {n : Node} {e : Nat}

/-! ## §2 Sending -/

/-- An edge carries a state: the one last sent along it is that state, or equal to it as far as the
domain can tell. -/
def Carries (it : Iteration σ) (run : Run σ) (e : Nat) (s : σ) : Prop :=
  ∃ v, run.sent.getD e none = some v ∧ (v = s ∨ it.domain.equal v s = .ok true)

/-- The edges and the queue of `run'` come from those of `run` by sending the outcome `o` along
`es`. -/
structure Sends (it : Iteration σ) (o : Outcome σ) (es : List Nat) (run run' : Run σ) : Prop where
  length_eq : run'.sent.length = run.sent.length
  /-- An edge keeps its state, or gets that of the outcome and has its target queued. -/
  sent : ∀ e, run'.sent.getD e none = run.sent.getD e none ∨
    ∃ edge, e ∈ es ∧ it.graph.edges[e]? = some edge ∧
      run'.sent.getD e none = some (o.along edge.kind) ∧ edge.target ∈ run'.queue
  carries : ∀ e ∈ es, ∀ edge, it.graph.edges[e]? = some edge →
    it.Carries run' e (o.along edge.kind)
  /-- The queue grows at its end, by targets of the edges. -/
  queue : ∃ new, run'.queue = run.queue ++ new ∧
    ∀ t ∈ new, ∃ e ∈ es, ∃ edge, it.graph.edges[e]? = some edge ∧ edge.target = t

/-- Sending takes nothing out of the queue. -/
theorem Sends.mem_queue (h : it.Sends o es run run') (hn : n ∈ run.queue) : n ∈ run'.queue := by
  obtain ⟨new, hqueue, -⟩ := h.queue
  rw [hqueue]
  exact List.mem_append_left new hn

/-- Only the edges and the queue count. -/
theorem Sends.congr_left (h : it.Sends o es run' run'') (hsent : run'.sent = run.sent)
    (hqueue : run'.queue = run.queue) : it.Sends o es run run'' where
  length_eq := hsent ▸ h.length_eq
  sent := hsent ▸ h.sent
  carries := h.carries
  queue := hqueue ▸ h.queue

/-- A node waits after it has been queued. -/
private theorem mem_enqueue (queue : List Node) (n : Node) : n ∈ enqueue queue n := by
  unfold enqueue
  split
  · assumption
  · exact List.mem_append_right queue (List.mem_singleton_self n)

/-- A node is queued at the end, unless it waits already. -/
private theorem exists_enqueue_eq (queue : List Node) (n : Node) :
    ∃ new, enqueue queue n = queue ++ new ∧ ∀ t ∈ new, t = n := by
  unfold enqueue
  split
  · exact ⟨[], (List.append_nil queue).symm, nofun⟩
  · exact ⟨[n], rfl, fun t ht => List.mem_singleton.mp ht⟩

/-- An edge is left alone only if it carries the state already. -/
theorem send_cases (o : Outcome σ) (run : Run σ) {edge : Edge}
    (hedge : it.graph.edges[e]? = some edge) :
    (it.send o run e = run ∧ it.Carries run e (o.along edge.kind)) ∨
    it.send o run e = { run with
      sent := run.sent.set e (some (o.along edge.kind))
      queue := enqueue run.queue edge.target } := by
  simp only [send, hedge]
  by_cases hcarried : ∃ old, run.sent.getD e none = some old ∧
      it.domain.equal old (o.along edge.kind) = .ok true
  · obtain ⟨old, hold, hsame⟩ := hcarried
    simp only [hold, hsame]
    exact .inl ⟨rfl, old, hold, .inr hsame⟩
  · -- the stored state is missing, different, or cannot be compared: in all three cases it is
    -- replaced
    refine .inr (if_neg fun hunchanged => hcarried ?_)
    split at hunchanged
    · rename_i old hold
      split at hunchanged
      · rename_i same hsame
        exact ⟨old, hold, hunchanged ▸ hsame⟩
      · cases hunchanged
    · cases hunchanged

private theorem sends_nil (it : Iteration σ) (o : Outcome σ) (run : Run σ) :
    it.Sends o [] run run where
  length_eq := rfl
  sent _ := .inl rfl
  carries _ h := nomatch h
  queue := ⟨[], (List.append_nil run.queue).symm, nofun⟩

/-- Sending along one edge. -/
private theorem sends_send (hlen : run.sent.length = it.graph.edges.length) (o : Outcome σ)
    (e : Nat) :
    it.Sends o [e] run (it.send o run e) := by
  cases hedge : it.graph.edges[e]? with
  -- a number that is no edge changes nothing
  | none =>
    have hsend : it.send o run e = run := by simp only [send, hedge]
    rw [hsend]
    refine ⟨rfl, fun _ => .inl rfl, ?_, ⟨[], (List.append_nil run.queue).symm, nofun⟩⟩
    intro k hk edge hget
    rw [List.mem_singleton.mp hk, hedge] at hget
    cases hget
  | some edge =>
    rcases send_cases o run hedge with ⟨hsend, hcarries⟩ | hsend
    · rw [hsend]
      refine ⟨rfl, fun _ => .inl rfl, ?_, ⟨[], (List.append_nil run.queue).symm, nofun⟩⟩
      intro k hk edge' hget
      rw [List.mem_singleton.mp hk] at hget ⊢
      rwa [Option.some.inj (hget.symm.trans hedge)]
    · rw [hsend]
      have hlt : e < run.sent.length := hlen ▸ (List.getElem?_eq_some_iff.mp hedge).1
      refine ⟨List.length_set, ?_, ?_, ?_⟩
      · intro k
        dsimp only
        rw [getD_set hlt]
        by_cases hke : k = e
        · subst hke
          exact .inr ⟨edge, List.mem_singleton_self k, hedge, if_pos rfl, mem_enqueue _ _⟩
        · exact .inl (if_neg hke)
      · intro k hk edge' hget
        rw [List.mem_singleton.mp hk] at hget ⊢
        rw [Option.some.inj (hget.symm.trans hedge)]
        exact ⟨_, (getD_set hlt _ _ e).trans (if_pos rfl), .inl rfl⟩
      · obtain ⟨new, hqueue, hnew⟩ := exists_enqueue_eq run.queue edge.target
        exact ⟨new, hqueue, fun t ht =>
          ⟨e, List.mem_singleton_self e, edge, hedge, (hnew t ht).symm⟩⟩

/-- Sending along two lists of edges, one after the other. -/
theorem Sends.trans (h : it.Sends o es run run') (h' : it.Sends o es' run' run'') :
    it.Sends o (es ++ es') run run'' where
  length_eq := h'.length_eq.trans h.length_eq
  sent e := by
    -- the later list decides, unless it left the edge alone
    rcases h'.sent e with hkept' | ⟨edge, he, hedge, hsent, hqueued⟩
    · rcases h.sent e with hkept | ⟨edge, he, hedge, hsent, hqueued⟩
      · exact .inl (hkept'.trans hkept)
      · exact .inr ⟨edge, List.mem_append_left es' he, hedge, hkept'.trans hsent,
          h'.mem_queue hqueued⟩
    · exact .inr ⟨edge, List.mem_append_right es he, hedge, hsent, hqueued⟩
  carries e he edge hedge := by
    rcases List.mem_append.mp he with he | he
    -- the second list may have replaced what the first one sent
    · rcases h'.sent e with hkept' | ⟨edge', -, hedge', hsent, -⟩
      · obtain ⟨v, hv, hcarried⟩ := h.carries e he edge hedge
        exact ⟨v, hkept'.trans hv, hcarried⟩
      · -- the edge stands in both lists: it was sent the same state again
        rw [Option.some.inj (hedge.symm.trans hedge')]
        exact ⟨_, hsent, .inl rfl⟩
    · exact h'.carries e he edge hedge
  queue := by
    obtain ⟨new, hqueue, hnew⟩ := h.queue
    obtain ⟨new', hqueue', hnew'⟩ := h'.queue
    refine ⟨new ++ new', by rw [hqueue', hqueue, List.append_assoc], fun t ht => ?_⟩
    rcases List.mem_append.mp ht with ht | ht
    · obtain ⟨e, he, hedge⟩ := hnew t ht
      exact ⟨e, List.mem_append_left es' he, hedge⟩
    · obtain ⟨e, he, hedge⟩ := hnew' t ht
      exact ⟨e, List.mem_append_right es he, hedge⟩

/-- Sending along all edges of a node. -/
private theorem sends_foldl (hlen : run.sent.length = it.graph.edges.length) (o : Outcome σ)
    (es : List Nat) : it.Sends o es run (es.foldl (it.send o) run) := by
  induction es generalizing run with
  | nil => exact sends_nil it o run
  | cons e es ih =>
    have hsend := sends_send hlen o e
    -- the tables keep their length, so that the rest of the list can be sent along
    exact hsend.trans (ih (hsend.length_eq.trans hlen))

/-- Sending changes nothing but the edges and the queue. -/
theorem foldl_send_frame {β : Type} (field : Run σ → β)
    (hfield : ∀ run sent queue, field { run with sent := sent, queue := queue } = field run)
    (o : Outcome σ) (run : Run σ) (es : List Nat) :
    field (es.foldl (it.send o) run) = field run := by
  induction es generalizing run with
  | nil => rfl
  | cons e es ih =>
    rw [List.foldl_cons, ih]
    cases hedge : it.graph.edges[e]? with
    | none => simp only [send, hedge]
    | some edge =>
      rcases send_cases o run hedge with ⟨hsend, -⟩ | hsend
      · rw [hsend]
      · rw [hsend, hfield]

/-! ## §3 Merging -/

/-- The merged state of a node: what arrives, at a node that is no loop header; at a loop header,
the widening or join of the state before with what arrives, or top if that fails. -/
theorem merge_cases (it : Iteration σ) (run : Run σ) (n : Node) :
    (it.isHeader n = false ∧ (it.merge run n).1 = (it.gathered run n).1) ∨
    (it.isHeader n = true ∧ ∃ answer,
      answer = (if it.widensAt run n then it.domain.widen else it.domain.join)
        (run.before.getD n it.domain.bottom) (it.gathered run n).1 ∧
      (answer = .ok (it.merge run n).1 ∨
        ∃ fault, answer = .error fault ∧ (it.merge run n).1 = it.domain.top)) := by
  unfold merge headerState
  cases hheader : it.isHeader n with
  | false => exact .inl ⟨rfl, rfl⟩
  | true =>
    refine .inr ⟨rfl, _, rfl, ?_⟩
    -- whether the merge is a widening depends on the count of merges
    cases hwidens : it.widensAt run n with
    | true =>
      simp only [if_true]
      cases it.domain.widen (run.before.getD n it.domain.bottom) (it.gathered run n).1 with
      | ok s => exact .inl rfl
      | error fault => exact .inr ⟨fault, rfl, rfl⟩
    | false =>
      simp only [Bool.false_eq_true, if_false, if_true]
      cases it.domain.join (run.before.getD n it.domain.bottom) (it.gathered run n).1 with
      | ok s => exact .inl rfl
      | error fault => exact .inr ⟨fault, rfl, rfl⟩

/-- Away from loop headers, the merged state is what arrives. -/
theorem merge_of_not_isHeader (run : Run σ) (h : it.isHeader n = false) :
    it.merge run n = it.gathered run n := by
  simp only [merge, h, Bool.false_eq_true, if_false]

/-! ## §4 Visiting -/

/-- The visit of a node that keeps its state. -/
structure Quiet (it : Iteration σ) (run : Run σ) (n : Node) (run' : Run σ) : Prop where
  visited : run.visited.getD n false = true
  same : it.domain.equal (it.merge run n).1 (run.before.getD n it.domain.bottom) = .ok true
  before_eq : run'.before = run.before
  visited_eq : run'.visited = run.visited
  sent_eq : run'.sent = run.sent
  queue_eq : run'.queue = run.queue

/-- The visit of a node that gets a state and sends its outcome. -/
structure Spreads (it : Iteration σ) (run : Run σ) (n : Node) (run' : Run σ) : Prop where
  fresh : run.visited.getD n false = false ∨
    it.domain.equal (it.merge run n).1 (run.before.getD n it.domain.bottom) ≠ .ok true
  before_eq : run'.before = run.before.set n (it.merge run n).1
  visited_eq : run'.visited = run.visited.set n true
  sends : it.Sends (it.outcome n (it.merge run n).1).1 (it.graph.outgoing n) run run'

/-- A visit that spreads puts only targets of the node's edges into the queue. -/
theorem Spreads.exists_new (h : it.Spreads run n run') : ∃ new, run'.queue = run.queue ++ new ∧
    ∀ t ∈ new, ∃ edge ∈ it.graph.edges, edge.source = n ∧ edge.target = t := by
  obtain ⟨new, hqueue, hnew⟩ := h.sends.queue
  refine ⟨new, hqueue, fun t ht => ?_⟩
  obtain ⟨e, he, edge, hedge, htarget⟩ := hnew t ht
  obtain ⟨edge', hedge', hsource⟩ := FlowGraph.mem_outgoing.mp he
  obtain rfl := Option.some.inj (hedge.symm.trans hedge')
  exact ⟨edge, List.mem_of_getElem? hedge, hsource, htarget⟩

/-- The state stays only if the domain confirms that it is the same; a failed comparison counts as a
change. -/
private theorem changes_eq_false_iff {s : σ} : (it.changes run n s).1 = false ↔
    it.domain.equal s (run.before.getD n it.domain.bottom) = .ok true := by
  unfold changes
  cases it.domain.equal s (run.before.getD n it.domain.bottom) with
  | error fault => exact ⟨nofun, nofun⟩
  | ok same => cases same <;> simp

/-- Every visit is quiet or spreads. -/
theorem visit_cases (hlen : run.sent.length = it.graph.edges.length) (n : Node) :
    it.Quiet run n (it.visit run n) ∨ it.Spreads run n (it.visit run n) := by
  -- the test of the visit itself
  by_cases hquiet : (run.visited.getD n false && !(it.changes run n (it.merge run n).1).1) = true
  · have hvisit : it.visit run n = it.count run n _ := if_pos hquiet
    rw [hvisit]
    rw [Bool.and_eq_true, Bool.not_eq_true', changes_eq_false_iff] at hquiet
    exact .inl ⟨hquiet.1, hquiet.2, rfl, rfl, rfl, rfl⟩
  · have hvisit : it.visit run n = it.spread (it.count run n _) n (it.merge run n).1 :=
      if_neg hquiet
    rw [hvisit]
    rw [Bool.and_eq_true, Bool.not_eq_true', changes_eq_false_iff] at hquiet
    refine .inr ⟨?_, ?_, ?_, ?_⟩
    · cases hvisited : run.visited.getD n false with
      | false => exact .inl rfl
      | true => exact .inr fun hsame => hquiet ⟨hvisited, hsame⟩
    · exact foldl_send_frame Run.before (fun _ _ _ => rfl) _ _ _
    · exact foldl_send_frame Run.visited (fun _ _ _ => rfl) _ _ _
    · -- counting the visit has changed neither the edges nor the queue
      refine Sends.congr_left (sends_foldl ?_ _ _) rfl rfl
      exact hlen

/-- A visit counts a merge of a loop header, and of no other node. -/
theorem visit_merges (it : Iteration σ) (run : Run σ) (n : Node) : (it.visit run n).merges =
    if it.isHeader n then run.merges.modify n (· + 1) else run.merges := by
  unfold visit
  dsimp only
  split
  · rfl
  · exact foldl_send_frame Run.merges (fun _ _ _ => rfl) _ _ _

/-- Every visit is counted. -/
theorem visit_visits (it : Iteration σ) (run : Run σ) (n : Node) :
    (it.visit run n).visits = run.visits + 1 := by
  unfold visit
  dsimp only
  split
  · rfl
  · exact foldl_send_frame Run.visits (fun _ _ _ => rfl) _ _ _

/-! ## §5 Runs -/

/-- The tables of a run fit the graph, and only nodes of the graph wait. -/
structure Shaped (it : Iteration σ) (run : Run σ) : Prop where
  before : run.before.length = it.graph.size
  visited : run.visited.length = it.graph.size
  sent : run.sent.length = it.graph.edges.length
  merges : run.merges.length = it.graph.size
  queue : ∀ n ∈ run.queue, n < it.graph.size

private theorem shaped_start (it : Iteration σ) : it.Shaped it.start where
  before := List.length_replicate
  visited := List.length_replicate
  sent := List.length_replicate
  merges := List.length_replicate
  queue _ hn := List.mem_singleton.mp hn ▸ it.graph.entry_lt_size

theorem sent_start (it : Iteration σ) (e : Nat) : it.start.sent.getD e none = none := by
  rw [start, List.getD_eq_getElem?_getD, List.getElem?_replicate]
  split <;> rfl

theorem before_start (it : Iteration σ) (n : Node) :
    it.start.before.getD n it.domain.bottom = it.domain.bottom := by
  rw [start, List.getD_eq_getElem?_getD, List.getElem?_replicate]
  split <;> rfl

/-- A visit keeps the sizes of the tables. -/
theorem Shaped.visit (h : it.Shaped run) (n : Node) : it.Shaped (it.visit run n) := by
  have hmerges : (it.visit run n).merges.length = it.graph.size := by
    rw [visit_merges]
    split
    · rw [List.length_modify, h.merges]
    · exact h.merges
  rcases visit_cases h.sent n with hquiet | hspreads
  · exact ⟨hquiet.before_eq ▸ h.before, hquiet.visited_eq ▸ h.visited, hquiet.sent_eq ▸ h.sent,
      hmerges, hquiet.queue_eq ▸ h.queue⟩
  · refine ⟨?_, ?_, hspreads.sends.length_eq.trans h.sent, hmerges, fun t ht => ?_⟩
    · rw [hspreads.before_eq, List.length_set, h.before]
    · rw [hspreads.visited_eq, List.length_set, h.visited]
    · -- new nodes in the queue are targets of edges, and edges stay within the graph
      obtain ⟨new, hqueue, hnew⟩ := hspreads.exists_new
      rw [hqueue] at ht
      rcases List.mem_append.mp ht with ht | ht
      · exact h.queue t ht
      · obtain ⟨edge, hedge, -, rfl⟩ := hnew t ht
        exact (it.graph.closed edge hedge).2

/-- Taking a waiting node out of the queue, wherever it stands, gives a node of the graph. -/
theorem Shaped.pop {rest : List Node} (h : it.Shaped run) (hqueue : run.queue.Perm (n :: rest)) :
    it.Shaped { run with queue := rest } ∧ n < it.graph.size := by
  have hmem : ∀ t ∈ n :: rest, t < it.graph.size := fun t ht => h.queue t (hqueue.mem_iff.mpr ht)
  exact ⟨⟨h.before, h.visited, h.sent, h.merges, fun t ht => hmem t (List.mem_cons_of_mem n ht)⟩,
    hmem n List.mem_cons_self⟩

theorem Spreads.visited_self (h : it.Spreads run n run') (hshape : it.Shaped run)
    (hn : n < it.graph.size) : run'.visited.getD n false = true := by
  rw [h.visited_eq, getD_set (hshape.visited ▸ hn), if_pos rfl]

theorem Spreads.before_self (h : it.Spreads run n run') (hshape : it.Shaped run)
    (hn : n < it.graph.size) : run'.before.getD n it.domain.bottom = (it.merge run n).1 := by
  rw [h.before_eq, getD_set (hshape.before ▸ hn), if_pos rfl]

/-- The visit of a node leaves the other nodes alone. -/
theorem visit_of_ne (hshape : it.Shaped run) (hn : n < it.graph.size) {t : Node} (ht : t ≠ n) :
    (it.visit run n).visited.getD t false = run.visited.getD t false ∧
    (it.visit run n).before.getD t it.domain.bottom = run.before.getD t it.domain.bottom := by
  rcases visit_cases hshape.sent n with hquiet | hspreads
  · rw [hquiet.visited_eq, hquiet.before_eq]
    exact ⟨rfl, rfl⟩
  · rw [hspreads.visited_eq, hspreads.before_eq, getD_set (hshape.visited ▸ hn),
      getD_set (hshape.before ▸ hn), if_neg ht, if_neg ht]
    exact ⟨rfl, rfl⟩

/-- After a visit, a node has the state that it had, or it is the visited one and has its merged
state. -/
theorem before_visit (hshape : it.Shaped run) (hn : n < it.graph.size) (t : Node) :
    (it.visit run n).before.getD t it.domain.bottom = run.before.getD t it.domain.bottom ∨
      t = n ∧ (it.visit run n).before.getD t it.domain.bottom = (it.merge run n).1 := by
  rcases visit_cases hshape.sent n with hquiet | hspreads
  · exact .inl (congrArg (·.getD t it.domain.bottom) hquiet.before_eq)
  · by_cases ht : t = n
    · subst ht
      exact .inr ⟨rfl, hspreads.before_self hshape hn⟩
    · exact .inl (visit_of_ne hshape hn ht).2

/-- A visit leaves alone what was sent along an edge, unless it sends the outcome of the edge's
source and queues the edge's target. -/
theorem sent_visit (hshape : it.Shaped run) (hn : n < it.graph.size) {edge : Edge}
    (hedge : it.graph.edges[e]? = some edge) :
    (it.visit run n).sent.getD e none = run.sent.getD e none ∨
      edge.source = n ∧ edge.target ∈ (it.visit run n).queue ∧
      (it.visit run n).sent.getD e none = some ((it.outcome edge.source
        ((it.visit run n).before.getD edge.source it.domain.bottom)).1.along edge.kind) := by
  rcases visit_cases hshape.sent n with hquiet | hspreads
  · exact .inl (congrArg (·.getD e none) hquiet.sent_eq)
  · rcases hspreads.sends.sent e with hkept | ⟨edge', hout, hedge', hsent, hqueued⟩
    · exact .inl hkept
    · -- the edge that was sent along is the one in question, and it leaves the visited node
      obtain rfl := Option.some.inj (hedge.symm.trans hedge')
      obtain ⟨edge', hedge', hsource⟩ := FlowGraph.mem_outgoing.mp hout
      obtain rfl := Option.some.inj (hedge.symm.trans hedge')
      subst hsource
      rw [hspreads.before_self hshape hn]
      exact .inr ⟨rfl, hqueued, hsent⟩

/-- The runs of an iteration when waiting nodes are visited in any order. -/
inductive Reaches (it : Iteration σ) : Run σ → Prop where
  | start : it.Reaches it.start
  | visit {run : Run σ} {n : Node} {rest : List Node} (hrun : it.Reaches run)
      (hqueue : run.queue.Perm (n :: rest)) : it.Reaches (it.visit { run with queue := rest } n)

/-- The tables of every run fit the graph. -/
theorem Reaches.shaped (h : it.Reaches run) : it.Shaped run := by
  induction h with
  | start => exact shaped_start it
  | visit _ hqueue hshape => exact (hshape.pop hqueue).1.visit _

/-- A property of all runs needs only visits of nodes of the graph in runs whose tables fit it. -/
theorem reaches_induction {motive : Run σ → Prop} (hstart : motive it.start)
    (hvisit : ∀ run n rest, it.Reaches run → it.Shaped { run with queue := rest } →
      n < it.graph.size → run.queue.Perm (n :: rest) → motive run →
      motive (it.visit { run with queue := rest } n))
    (h : it.Reaches run) : motive run := by
  induction h with
  | start => exact hstart
  | visit hrun hqueue ih =>
    obtain ⟨hshape, hn⟩ := hrun.shaped.pop hqueue
    exact hvisit _ _ _ hrun hshape hn hqueue ih

/-- Visiting the first node in the queue each time is one of the orders. -/
theorem reaches_iterate (h : it.Reaches run) (limit : Nat) : it.Reaches (it.iterate limit run) := by
  induction limit generalizing run with
  | zero => exact h
  | succ limit ih =>
    unfold iterate
    split
    · exact h
    · rename_i n rest hqueue
      exact ih (h.visit (hqueue ▸ List.Perm.refl _))

end Iteration

end RangeGuard
