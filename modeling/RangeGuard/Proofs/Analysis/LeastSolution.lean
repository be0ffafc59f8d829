import RangeGuard.Proofs.Analysis.Growth
import RangeGuard.Proofs.Box.WellFormed

/-!
# The least solution of the flow equations

States for all nodes solve the flow equations of a graph if the entry has all stores, and the state
of each node is above what its predecessors' instructions send to it. In an ordered domain, the
states of an iteration without waiting nodes are a solution, with or without widening.

As long as no loop header has been widened, they are also below every solution: what arrives is a
least upper bound of states that smaller states than those of the solution have sent. So an
iteration that ends without a widening gives the least solution. There is only one, and the order in
which the waiting nodes were visited does not show in it.

## When nothing has been widened

A header is widened once it has been merged as often as the threshold says. Three conditions exclude
that: there is no loop header, fewer visits were made than the threshold, or the counts of merges
themselves are below it (`Iteration.Unwidened`). The first two can be read off the graph and the
result, and they imply the third.
-/

namespace RangeGuard

variable {σ : Type}

/-- The states `S`, which have the property `P`, solve the flow equations of the graph `g`. -/
structure Domain.Solves (d : Domain σ) (P : σ → Prop) (g : FlowGraph) (S : Node → σ) : Prop where
  states : ∀ n, P (S n)
  entry : S g.entry = d.top
  edges : ∀ edge ∈ g.edges, ∃ o, d.transfer (S edge.source) (g.instruction edge.source) = .ok o ∧
    d.le (o.along edge.kind) (S edge.target) = .ok true

namespace Iteration

variable {it : Iteration σ} {P : σ → Prop} {S : Node → σ} {run run' : Run σ} {n : Node}

/-! ## §1 The states are a solution -/

/-- The states of a run are a solution once no node waits. -/
theorem solves_of_queue_eq_nil (hd : it.domain.Ordered P) (h : it.Reaches run)
    (hqueue : run.queue = []) :
    it.domain.Solves P it.graph fun n => run.before.getD n it.domain.bottom := by
  have hstates := hd.preserves.before (hd.preserves.states_reaches h)
  have hsettled := settled_of_reaches hd.encloses h
  simp only [hqueue, List.not_mem_nil] at hsettled
  refine ⟨hstates, ?_, ?_⟩
  · obtain ⟨-, htop⟩ := hsettled.entry.resolve_left id
    exact hd.antisymm (hstates _) hd.preserves.top (hd.le_top (hstates _)) htop
  · intro edge hmem
    obtain ⟨e, hedge⟩ := List.mem_iff_getElem?.mp hmem
    refine ⟨_, (hd.outcome (hstates edge.source) edge.source).1, ?_⟩
    cases hvisited : run.visited.getD edge.source false with
    | true =>
      -- the source has sent its outcome, and the target has taken it in
      obtain ⟨s, hsent, hcarried⟩ := hsettled.given e edge hedge hvisited
      obtain ⟨-, htaken⟩ := (hsettled.taken e edge s hedge hsent).resolve_left id
      exact hd.trans (hstates _) hcarried htaken
    | false =>
      -- a node that was never visited has bottom, and bottom goes on as bottom
      rw [hsettled.unvisited edge.source hvisited, hd.outcome_bottom]
      exact hd.bottom_le (hstates _)

/-! ## §2 Merges -/

/-- No loop header has been merged as often as widening takes. -/
def Unwidened (it : Iteration σ) (run : Run σ) : Prop :=
  ∀ n, it.isHeader n = true → run.merges.getD n 0 < it.wideningThreshold

/-- A visit counts at most one merge, and takes none back. -/
private theorem merges_visit_bounds (hshape : it.Shaped run) (hn : n < it.graph.size) (t : Node) :
    run.merges.getD t 0 ≤ (it.visit run n).merges.getD t 0 ∧
      (it.visit run n).merges.getD t 0 ≤ run.merges.getD t 0 + 1 := by
  by_cases ht : t = n
  · subst ht
    cases hheader : it.isHeader t with
    | true =>
      rw [merges_visit_self hshape hn hheader]
      omega
    | false =>
      rw [visit_merges, hheader, if_neg Bool.false_ne_true]
      omega
  · rw [merges_visit_of_ne ht]
    omega

/-- A node is merged at most once in every visit. -/
theorem merges_le_visits (h : it.Reaches run) (n : Node) : run.merges.getD n 0 ≤ run.visits := by
  refine reaches_induction (motive := fun run => run.merges.getD n 0 ≤ run.visits) ?_ ?_ h
  · rw [start, List.getD_eq_getElem?_getD, List.getElem?_replicate]
    split <;> exact le_rfl
  · intro run m rest _ hshape hm _ hle
    rw [visit_visits]
    exact (merges_visit_bounds hshape hm n).2.trans (Nat.succ_le_succ hle)

/-- With fewer visits than the threshold nothing has been widened. -/
private theorem unwidened_of_visits_lt (h : it.Reaches run)
    (hvisits : run.visits < it.wideningThreshold) :
    it.Unwidened run :=
  fun n _ => (merges_le_visits h n).trans_lt hvisits

/-- Without loop headers nothing is widened at all. -/
private theorem unwidened_of_headers_eq_nil (h : it.headers = []) (run : Run σ) :
    it.Unwidened run := by
  intro n hheader
  rw [isHeader, h] at hheader
  cases hheader

/-- Merges are never taken back, so an earlier run was unwidened as well, and the visit did not
widen. -/
theorem Unwidened.of_visit (hshape : it.Shaped run) (hn : n < it.graph.size)
    (h : it.Unwidened (it.visit run n)) :
    it.Unwidened run ∧ (it.isHeader n = true → it.widensAt run n = false) := by
  refine ⟨fun t ht => (merges_visit_bounds hshape hn t).1.trans_lt (h t ht), fun hheader => ?_⟩
  have hmerges := h n hheader
  rw [merges_visit_self hshape hn hheader] at hmerges
  exact decide_eq_false hmerges.not_ge

/-! ## §3 The states are below every solution -/

/-- The outcome of a state below a solution is below the solution on the other side of the edge. -/
theorem outcome_le_of_solves (hd : it.domain.Ordered P) (hS : it.domain.Solves P it.graph S)
    {edge : Edge} (hedge : edge ∈ it.graph.edges) {s : σ} (hs : P s)
    (hle : it.domain.le s (S edge.source) = .ok true) :
    it.domain.le ((it.outcome edge.source s).1.along edge.kind) (S edge.target) = .ok true := by
  obtain ⟨o, htransfer, htarget⟩ := hS.edges edge hedge
  obtain ⟨houtcome, -⟩ := hd.outcome (hS.states edge.source) edge.source
  -- the outcome in the solution is what the iteration would send there
  obtain rfl := Except.ok.inj (htransfer.symm.trans houtcome)
  exact hd.trans (hS.states edge.target)
    (hd.outcome_le_outcome hs (hS.states edge.source) hle edge.source edge.kind) htarget

/-- The states before all nodes and on all edges of a run are below those in `S`. -/
structure Below (it : Iteration σ) (S : Node → σ) (run : Run σ) : Prop where
  before : ∀ n, it.domain.le (run.before.getD n it.domain.bottom) (S n) = .ok true
  sent : ∀ e edge s, it.graph.edges[e]? = some edge → run.sent.getD e none = some s →
    it.domain.le s (S edge.target) = .ok true

namespace Below

/-- At the start all states are bottom. -/
theorem start (hd : it.domain.Ordered P) (hS : it.domain.Solves P it.graph S) :
    it.Below S it.start where
  before n := by
    rw [before_start]
    exact hd.bottom_le (hS.states n)
  sent e edge s _ hsent := by
    rw [sent_start] at hsent
    cases hsent

theorem withQueue (h : it.Below S run) (queue : List Node) :
    it.Below S { run with queue := queue } := ⟨h.before, h.sent⟩

/-- A merge without widening is below a solution: it is the least state above others that are. -/
theorem merge (hd : it.domain.Ordered P) (hS : it.domain.Solves P it.graph S)
    (hstates : run.States P) (hwidens : it.isHeader n = true → it.widensAt run n = false)
    (h : it.Below S run) : it.domain.le (it.merge run n).1 (S n) = .ok true := by
  have hgathered : it.domain.le (it.gathered run n).1 (S n) = .ok true := by
    refine hd.gathered_le hstates (hS.states n) ?_ ?_
    · split
      · rename_i hentry
        rw [hentry, hS.entry]
        exact hd.refl hd.preserves.top
      · exact hd.bottom_le (hS.states n)
    · intro e edge s hedge htarget hsent
      subst htarget
      exact h.sent e edge s hedge hsent
  cases hheader : it.isHeader n with
  | false =>
    rw [merge_of_not_isHeader run hheader]
    exact hgathered
  | true =>
    have hmerge := hd.merge_header hstates hheader
    rw [hwidens hheader, if_neg Bool.false_ne_true] at hmerge
    -- a join with the previous state, which is below the solution too
    exact hd.join_le (hS.states n) hmerge (h.before n) hgathered

/-- A visit that does not widen keeps the states below a solution. -/
theorem visit (hd : it.domain.Ordered P) (hS : it.domain.Solves P it.graph S)
    (hshape : it.Shaped run) (hstates : run.States P) (hn : n < it.graph.size)
    (hwidens : it.isHeader n = true → it.widensAt run n = false) (h : it.Below S run) :
    it.Below S (it.visit run n) := by
  have hbefore : ∀ t, it.domain.le ((it.visit run n).before.getD t it.domain.bottom) (S t) =
      .ok true := by
    intro t
    rcases before_visit hshape hn t with hkept | ⟨rfl, hmerged⟩
    · rw [hkept]
      exact h.before t
    · rw [hmerged]
      exact h.merge hd hS hstates hwidens
  refine ⟨hbefore, ?_⟩
  intro e edge s hedge hsent
  rcases sent_visit hshape hn hedge with hkept | ⟨-, -, hsent'⟩
  · exact h.sent e edge s hedge (hkept.symm.trans hsent)
  · obtain rfl := Option.some.inj (hsent'.symm.trans hsent)
    -- the visit has sent the outcome of a state that is below the solution already
    have hstates' := hd.preserves.states_visit hshape.sent hstates n
    exact outcome_le_of_solves hd hS (List.mem_of_getElem? hedge)
      (hd.preserves.before hstates' edge.source) (hbefore edge.source)

end Below

/-- As long as nothing has been widened, the states of a run are below every solution. -/
theorem below_of_unwidened (hd : it.domain.Ordered P) (hS : it.domain.Solves P it.graph S)
    (h : it.Reaches run) (hunwidened : it.Unwidened run) : it.Below S run := by
  -- the hypothesis is on the whole run, so it has to go into the induction
  revert hunwidened
  refine reaches_induction (motive := fun run => it.Unwidened run → it.Below S run)
    (fun _ => Below.start hd hS) ?_ h
  intro run n rest hreaches hshape hn _ ih hunwidened
  obtain ⟨hbefore, hwidens⟩ := hunwidened.of_visit hshape hn
  have hstates := (hd.preserves.states_reaches hreaches).withQueue rest
  exact ((ih hbefore).withQueue rest).visit hd hS hshape hstates hn hwidens

/-- Two runs that have come to an end without widening have the same states, whatever the orders of
their visits. -/
theorem before_eq_of_unwidened (hd : it.domain.Ordered P) (h : it.Reaches run)
    (hqueue : run.queue = []) (hunwidened : it.Unwidened run) (h' : it.Reaches run')
    (hqueue' : run'.queue = []) (hunwidened' : it.Unwidened run') (n : Node) :
    run.before.getD n it.domain.bottom = run'.before.getD n it.domain.bottom := by
  have hsolves := solves_of_queue_eq_nil hd h hqueue
  have hsolves' := solves_of_queue_eq_nil hd h' hqueue'
  -- each run is a solution, and each is below the other
  exact hd.antisymm (hsolves.states n) (hsolves'.states n)
    ((below_of_unwidened hd hsolves' h hunwidened).before n)
    ((below_of_unwidened hd hsolves h' hunwidened').before n)

end Iteration

/-! ## §4 Boxes -/

namespace Box

/-- If the analysis with boxes converges, and no loop header was merged as often as the widening
threshold says, its invariants are well-formed boxes that solve the flow equations, and they lie
below every solution in proper boxes. Any other order of visits that ends without widening gives the
same boxes. -/
theorem analyze_least_solution (scope : Scope) (settings : Settings) (g : FlowGraph)
    (hconverged : ((domain scope).analyze settings g).converged = true)
    (hmerges : g.loopHeaders = [] ∨
      ((domain scope).analyze settings g).visits < settings.wideningThreshold ∨
      (Iteration.of (domain scope) settings g).Unwidened
        ((Iteration.of (domain scope) settings g).after settings.visitLimit)) :
    (domain scope).Solves (WellFormed scope) g
        (((domain scope).analyze settings g).at (domain scope)) ∧
    (∀ S, (domain scope).Solves (Proper scope) g S → ∀ n,
      le scope (((domain scope).analyze settings g).at (domain scope) n) (S n) = .ok true) ∧
    ∀ run, (Iteration.of (domain scope) settings g).Reaches run → run.queue = [] →
      (Iteration.of (domain scope) settings g).Unwidened run → ∀ n,
      run.before.getD n bottom = ((domain scope).analyze settings g).at (domain scope) n := by
  have hd : (Iteration.of (domain scope) settings g).domain.Ordered (Proper scope) :=
    ordered_domain scope
  have hreaches :=
    Iteration.reaches_after (Iteration.of (domain scope) settings g) settings.visitLimit
  have hqueue : ((Iteration.of (domain scope) settings g).after settings.visitLimit).queue = [] :=
    List.isEmpty_iff.mp hconverged
  have hunwidened : (Iteration.of (domain scope) settings g).Unwidened
      ((Iteration.of (domain scope) settings g).after settings.visitLimit) := by
    rcases hmerges with hnone | hvisits | hunwidened
    · exact Iteration.unwidened_of_headers_eq_nil hnone _
    · exact Iteration.unwidened_of_visits_lt hreaches hvisits
    · exact hunwidened
  have hsolves := Iteration.solves_of_queue_eq_nil hd hreaches hqueue
  have hwellFormed : (Iteration.of (domain scope) settings g).domain.Preserves (WellFormed scope) :=
    preserves_wellFormed scope
  refine ⟨⟨?_, hsolves.entry, hsolves.edges⟩, ?_, ?_⟩
  · exact hwellFormed.before (hwellFormed.states_reaches hreaches)
  · intro S hS
    exact (Iteration.below_of_unwidened hd hS hreaches hunwidened).before
  · intro run hrun hempty hother n
    exact Iteration.before_eq_of_unwidened hd hrun hempty hother hreaches hqueue hunwidened n

end Box

/-- The loop that counts, without widening. -/
def countingExactly : Analysis Box :=
  (Box.domain counterScope).analyze { wideningThreshold := 100 } countingLoop

/-- Without widening the counter is ten behind the loop; with it, ten or more. -/
theorem analyze_least_solution_countingLoop :
    (countingExactly.converged = true ∧ countingExactly.visits = 24) ∧
    (countingExactly.at (Box.domain counterScope) 3 = .reachable [.point 10] ∧
      (countingUpTo 100).at (Box.domain counterScope) 3 = .reachable [⟨.finite 10, .posInf⟩]) ∧
    Box.le counterScope (countingExactly.at (Box.domain counterScope) 3)
      ((countingUpTo 100).at (Box.domain counterScope) 3) = .ok true := by
  have hexact : (countingExactly.converged = true ∧ countingExactly.visits = 24) ∧
      countingExactly.at (Box.domain counterScope) 3 = .reachable [.point 10] := by
    rw [countingExactly, Domain.analyze, Iteration.of, loopHeaders_countingLoop]
    decide +kernel
  have hwidened : (countingUpTo 100).converged = true ∧
      (countingUpTo 100).at (Box.domain counterScope) 3 = .reachable [⟨.finite 10, .posInf⟩] := by
    rw [countingUpTo, Domain.analyze, Iteration.of, loopHeaders_countingLoop]
    decide +kernel
  -- with widening, the loop still has a solution, but a larger one
  have hsolves : (Box.domain counterScope).Solves (Box.Proper counterScope) countingLoop
      ((countingUpTo 100).at (Box.domain counterScope)) :=
    Iteration.solves_of_queue_eq_nil (Box.ordered_domain counterScope)
      (Iteration.reaches_after (Iteration.of _ { wideningThreshold := 2 } _) 100)
      (List.isEmpty_iff.mp hwidened.1)
  have hvisits : countingExactly.visits < 100 := hexact.1.2 ▸ by decide
  obtain ⟨-, hleast, -⟩ := Box.analyze_least_solution counterScope { wideningThreshold := 100 }
    countingLoop hexact.1.1 (.inr (.inl hvisits))
  exact ⟨hexact.1, ⟨hexact.2, hwidened.2⟩, hleast _ hsolves 3⟩

end RangeGuard
