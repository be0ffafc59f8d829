import RangeGuard.Proofs.Analysis.Ordered
import RangeGuard.Proofs.Analysis.Soundness

/-!
# Growth of the flow invariants

In an ordered domain the states of an iteration only grow, from visit to visit. That is plain for a
loop header, whose state is joined or widened with what arrives. Every other node is given what
arrives in place of the state that it had, so its state grows only because what arrives does.

The invariant that carries this has two halves (`Iteration.Rising`). What was sent along an edge
lies below the outcome of the state that its source has now; and the state of a node that is no loop
header lies below what would arrive now. A visit gives a node a larger state, sends larger states
because transfer is monotone, and so makes what arrives at every node larger.

A run with a smaller visit limit is a prefix of one with a larger limit. Once no node waits, further
visits do not happen. Together this says what raising the visit limit can do: as long as the
analysis does not converge, the states grow; from the visit on at which it converges, nothing
changes.
-/

namespace RangeGuard

variable {σ : Type}

namespace Iteration

variable {it : Iteration σ} {P : σ → Prop} {run : Run σ} {n : Node} {j k : Nat}

/-! ## §1 The invariant -/

/-- The states of a run can only grow in the visits to come. -/
structure Rising (it : Iteration σ) (run : Run σ) : Prop where
  sent : ∀ e edge s, it.graph.edges[e]? = some edge → run.sent.getD e none = some s →
    it.domain.le s ((it.outcome edge.source
      (run.before.getD edge.source it.domain.bottom)).1.along edge.kind) = .ok true
  before : ∀ n, it.isHeader n = false →
    it.domain.le (run.before.getD n it.domain.bottom) (it.gathered run n).1 = .ok true

/-- At the start nothing has been sent, and all states are bottom. -/
private theorem rising_start (hd : it.domain.Ordered P) : it.Rising it.start where
  sent e edge s _ hsent := by
    rw [sent_start] at hsent
    cases hsent
  before n _ := by
    rw [before_start]
    exact hd.bottom_le (hd.preserves.gathered (hd.preserves.states_reaches .start))

namespace Rising

/-- A merged state is above the state that the node had. -/
theorem le_merge (hd : it.domain.Ordered P) (hstates : run.States P) (h : it.Rising run)
    (n : Node) :
    it.domain.le (run.before.getD n it.domain.bottom) (it.merge run n).1 = .ok true := by
  have hbefore := hd.preserves.before hstates n
  have hgathered := hd.preserves.gathered (n := n) hstates
  cases hheader : it.isHeader n with
  | true =>
    have hmerge := hd.merge_header hstates hheader
    -- at a header the previous state is an argument of the merge
    split at hmerge
    · exact hd.widen_left hbefore hgathered hmerge
    · exact hd.join_left hbefore hgathered hmerge
  | false =>
    rw [merge_of_not_isHeader run hheader]
    exact h.before n hheader

/-- A visit makes no state smaller. -/
theorem before_le_visit (hd : it.domain.Ordered P) (hshape : it.Shaped run) (hstates : run.States P)
    (hn : n < it.graph.size) (h : it.Rising run) (t : Node) :
    it.domain.le (run.before.getD t it.domain.bottom)
      ((it.visit run n).before.getD t it.domain.bottom) = .ok true := by
  rcases before_visit hshape hn t with hkept | ⟨rfl, hmerged⟩
  · rw [hkept]
    exact hd.refl (hd.preserves.before hstates t)
  · rw [hmerged]
    exact h.le_merge hd hstates t

/-- What an edge carried before a visit lies below the outcome of its source after it. -/
theorem sent_le_outcome_visit (hd : it.domain.Ordered P) (hshape : it.Shaped run)
    (hstates : run.States P) (hn : n < it.graph.size) (h : it.Rising run) {e : Nat} {edge : Edge}
    {s : σ} (hedge : it.graph.edges[e]? = some edge) (hsent : run.sent.getD e none = some s) :
    it.domain.le s ((it.outcome edge.source
      ((it.visit run n).before.getD edge.source it.domain.bottom)).1.along edge.kind) =
        .ok true := by
  have hbefore' := hd.preserves.before (hd.preserves.states_visit hshape.sent hstates n) edge.source
  -- the source has a larger state, hence a larger outcome
  have hgrows := hd.outcome_le_outcome (hd.preserves.before hstates edge.source) hbefore'
    (h.before_le_visit hd hshape hstates hn edge.source) edge.source edge.kind
  exact hd.trans (hd.preserves.outcome hbefore' edge.kind) (h.sent e edge s hedge hsent) hgrows

/-- A visit makes nothing that an edge carries smaller. -/
theorem exists_sent_visit (hd : it.domain.Ordered P) (hshape : it.Shaped run)
    (hstates : run.States P) (hn : n < it.graph.size) (h : it.Rising run) {e : Nat} {edge : Edge}
    {s : σ} (hedge : it.graph.edges[e]? = some edge) (hsent : run.sent.getD e none = some s) :
    ∃ t, (it.visit run n).sent.getD e none = some t ∧ it.domain.le s t = .ok true := by
  rcases sent_visit hshape hn hedge with hkept | ⟨-, -, hsent'⟩
  · exact ⟨s, hkept.trans hsent, hd.refl (hstates.sent e s hsent)⟩
  · exact ⟨_, hsent', h.sent_le_outcome_visit hd hshape hstates hn hedge hsent⟩

/-- A visit makes nothing that would arrive at a node smaller. -/
theorem gathered_le_visit (hd : it.domain.Ordered P) (hshape : it.Shaped run)
    (hstates : run.States P) (hn : n < it.graph.size) (h : it.Rising run) (t : Node) :
    it.domain.le (it.gathered run t).1 (it.gathered (it.visit run n) t).1 = .ok true := by
  have hstates' := hd.preserves.states_visit hshape.sent hstates n
  have hgathered' := hd.preserves.gathered (n := t) hstates'
  obtain ⟨hstart, hsent'⟩ := hd.encloses.gathered hstates' t
  -- what arrives is a least upper bound, so it is enough to compare what was sent
  refine hd.gathered_le hstates hgathered' hstart ?_
  intro e edge s hedge htarget hsent
  obtain ⟨s', hs', hle⟩ := h.exists_sent_visit hd hshape hstates hn hedge hsent
  have he : e ∈ it.graph.incoming t := FlowGraph.mem_incoming.mpr ⟨edge, hedge, htarget⟩
  exact hd.trans hgathered' hle (hsent' e he s' hs')

/-- A visit keeps the invariant. -/
theorem visit (hd : it.domain.Ordered P) (hshape : it.Shaped run) (hstates : run.States P)
    (hn : n < it.graph.size) (h : it.Rising run) : it.Rising (it.visit run n) := by
  have hstates' := hd.preserves.states_visit hshape.sent hstates n
  refine ⟨?_, ?_⟩
  · intro e edge s hedge hsent
    rcases sent_visit hshape hn hedge with hkept | ⟨-, -, hsent'⟩
    · exact h.sent_le_outcome_visit hd hshape hstates hn hedge (hkept.symm.trans hsent)
    · -- the edge has just got the outcome of the state that its source has now
      obtain rfl := Option.some.inj (hsent'.symm.trans hsent)
      exact hd.refl (hstates'.sent e _ hsent)
  · intro t hheader
    have hgrows := h.gathered_le_visit hd hshape hstates hn t
    rcases before_visit hshape hn t with hkept | ⟨rfl, hmerged⟩
    · rw [hkept]
      exact hd.trans (hd.preserves.gathered hstates') (h.before t hheader) hgrows
    · rw [hmerged, merge_of_not_isHeader run hheader]
      exact hgrows

end Rising

/-- The queue does not matter to what arrives. -/
theorem Rising.withQueue (h : it.Rising run) (queue : List Node) :
    it.Rising { run with queue := queue } := ⟨h.sent, h.before⟩

/-- The invariant holds along every run. -/
private theorem rising_of_reaches (hd : it.domain.Ordered P) (h : it.Reaches run) :
    it.Rising run := by
  refine reaches_induction (motive := it.Rising) (rising_start hd) ?_ h
  intro run n rest hreaches hshape hn _ hrising
  have hstates := hd.preserves.states_reaches hreaches
  exact (hrising.withQueue rest).visit hd hshape (hstates.withQueue rest) hn

/-! ## §2 Prefixes of a run -/

/-- The next visit makes no state smaller. -/
theorem before_le_after_succ (hd : it.domain.Ordered P) (k : Nat) (n : Node) :
    it.domain.le ((it.after k).before.getD n it.domain.bottom)
      ((it.after (k + 1)).before.getD n it.domain.bottom) = .ok true := by
  have hreaches := reaches_after it k
  have hstates := hd.preserves.states_reaches hreaches
  rcases after_cases it k with ⟨-, hsame⟩ | ⟨m, rest, hqueue, hm, hvisit, -⟩
  · rw [hsame]
    exact hd.refl (hd.preserves.before hstates n)
  · rw [hvisit]
    exact ((rising_of_reaches hd hreaches).withQueue rest).before_le_visit hd (pop_after hqueue).1
      (hstates.withQueue rest) hm n

/-- Once no node waits, the run stays as it is. -/
theorem after_eq_of_queue_eq_nil (hqueue : (it.after j).queue = []) (hjk : j ≤ k) :
    it.after k = it.after j := by
  induction k, hjk using Nat.le_induction with
  | base => rfl
  | succ k _ ih =>
    rcases after_cases it k with ⟨-, hsame⟩ | ⟨m, rest, hwaits, -⟩
    · exact hsame.trans ih
    · rw [ih, hqueue] at hwaits
      cases hwaits

/-- As long as nodes wait, every visit counts. -/
theorem visits_after (h : ∀ j < k, (it.after j).queue ≠ []) : (it.after k).visits = k := by
  induction k with
  | zero => rfl
  | succ k ih =>
    rcases after_cases it k with ⟨hempty, -⟩ | ⟨m, rest, -, -, hvisit, -⟩
    · exact absurd hempty (h k (Nat.lt_succ_self k))
    · rw [hvisit, visit_visits]
      exact congrArg (· + 1) (ih fun j hj => h j (Nat.lt_succ_of_lt hj))

/-- A run that has come to an end did so at the visit that its count names. -/
theorem queue_after_visits (hqueue : (it.after j).queue = []) :
    it.after (it.after j).visits = it.after j ∧
      ∀ k < (it.after j).visits, (it.after k).queue ≠ [] := by
  -- the first number of visits after which no node waits
  classical
  have hexists : ∃ k, (it.after k).queue = [] := ⟨j, hqueue⟩
  have hfirst := Nat.find_spec hexists
  have hbefore : ∀ k < Nat.find hexists, (it.after k).queue ≠ [] := fun k => Nat.find_min hexists
  have hsame := after_eq_of_queue_eq_nil hfirst (Nat.find_min' hexists hqueue)
  rw [hsame, visits_after hbefore]
  exact ⟨rfl, hbefore⟩

end Iteration

/-! ## §3 Boxes -/

namespace Box

/-- The analyses with boxes grow with the visit limit, at every node. If the analysis under some
limit converges, every limit from its number of visits on gives the same analysis, and under a
smaller limit the analysis does not converge and uses up its limit. -/
theorem analyze_grows_with_limit (scope : Scope) (settings : Settings) (g : FlowGraph) :
    (∀ k n, le scope
      (((domain scope).analyze { settings with visitLimit := k } g).at (domain scope) n)
      (((domain scope).analyze { settings with visitLimit := k + 1 } g).at (domain scope) n) =
        .ok true) ∧
    ∀ limit, ((domain scope).analyze { settings with visitLimit := limit } g).converged = true →
      ∀ k, (((domain scope).analyze { settings with visitLimit := limit } g).visits ≤ k →
          (domain scope).analyze { settings with visitLimit := k } g =
            (domain scope).analyze { settings with visitLimit := limit } g) ∧
        (k < ((domain scope).analyze { settings with visitLimit := limit } g).visits →
          ((domain scope).analyze { settings with visitLimit := k } g).converged = false ∧
          ((domain scope).analyze { settings with visitLimit := k } g).visits = k) := by
  -- the limit enters only as the number of visits that are made
  have hanalyze : ∀ k, (domain scope).analyze { settings with visitLimit := k } g =
      ((Iteration.of (domain scope) settings g).after k).analysis := fun _ => rfl
  refine ⟨?_, ?_⟩
  · intro k n
    have hd : (Iteration.of (domain scope) settings g).domain.Ordered (Proper scope) :=
      ordered_domain scope
    exact Iteration.before_le_after_succ hd k n
  · intro limit hconverged k
    simp only [hanalyze] at hconverged ⊢
    have hqueue := List.isEmpty_iff.mp hconverged
    obtain ⟨hsame, hbefore⟩ := Iteration.queue_after_visits hqueue
    constructor
    · intro hle
      have hempty : ((Iteration.of (domain scope) settings g).after
          ((Iteration.of (domain scope) settings g).after limit).visits).queue = [] := by
        rw [hsame]
        exact hqueue
      exact congrArg Run.analysis ((Iteration.after_eq_of_queue_eq_nil hempty hle).trans hsame)
    · intro hlt
      refine ⟨?_, Iteration.visits_after fun j hj => hbefore j (hj.trans hlt)⟩
      have hne := hbefore k hlt
      exact List.isEmpty_eq_false_iff.mpr hne

end Box

/-- The scope of the loop that counts. -/
def counterScope : Scope := .ofNames ["i"]

/-- The loop that counts, with one join at its header before the widening, and a visit limit. -/
def countingUpTo (limit : Nat) : Analysis Box :=
  (Box.domain counterScope).analyze { wideningThreshold := 2, visitLimit := limit } countingLoop

/-- The loop is finished after eight visits: a larger limit changes nothing, a smaller one cuts it
short. -/
theorem analyze_grows_with_limit_countingLoop :
    ((countingUpTo 100).converged = true ∧ (countingUpTo 100).visits = 8) ∧
    countingUpTo 8 = countingUpTo 100 ∧
    ((countingUpTo 7).converged = false ∧ (countingUpTo 7).visits = 7) ∧
    Box.le counterScope ((countingUpTo 3).at (Box.domain counterScope) 1)
      ((countingUpTo 4).at (Box.domain counterScope) 1) = .ok true := by
  have hconverged : (countingUpTo 100).converged = true ∧ (countingUpTo 100).visits = 8 := by
    rw [countingUpTo, Domain.analyze, Iteration.of, loopHeaders_countingLoop]
    decide +kernel
  obtain ⟨hgrows, hlimits⟩ :=
    Box.analyze_grows_with_limit counterScope { wideningThreshold := 2 } countingLoop
  have hfrom := (hlimits 100 hconverged.1 8).1
  have hbelow := (hlimits 100 hconverged.1 7).2
  exact ⟨hconverged, hfrom hconverged.2.le, hbelow (hconverged.2 ▸ by decide), hgrows 3 1⟩

end RangeGuard
