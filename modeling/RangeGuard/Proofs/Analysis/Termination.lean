import Mathlib.Order.Filter.AtTopBot.Basic
import Mathlib.Order.Filter.Finite
import RangeGuard.Proofs.Analysis.States
import RangeGuard.Proofs.Box.Widening
import RangeGuard.Proofs.Program.LoopHeaders

/-!
# Termination of the iteration

Without a visit limit, the iteration over any graph comes to an end, in every domain in which
widening uses up a supply. The argument goes by what holds from some visit on.

## The argument

1. *Loop headers spread finitely often* (§2). Before the threshold each merge counts down to it, and
   from then on each change is a widening that changes something, so it takes from the supply of the
   header.
2. *So does every other node* (§3). It is put into the queue only by nodes of lower rank that
   spread, since loop headers cut every cycle. By induction on the rank, those are silent from some
   visit on; then the node is visited no more often than it waits already.
3. *The queue becomes empty* (§3). Once no node spreads, each visit shortens the queue.

All three steps have the same form: a natural number that never increases from some visit on and
decreases with each event leaves only finitely many events (`eventually_not_of_descent`).

The bound on the number of visits is not computed. The last section applies the result to boxes,
whose slack is the supply, and states it as convergence under every large enough visit limit.
-/

namespace RangeGuard

open Filter

/-- A quantity that never increases from some point on, and decreases whenever an event happens,
leaves only finitely many events. -/
theorem eventually_not_of_descent {f : Nat → Nat} {event : Nat → Prop}
    (h : ∀ᶠ k in atTop, f (k + 1) ≤ f k ∧ (event k → f (k + 1) < f k)) :
    ∀ᶠ k in atTop, ¬ event k := by
  obtain ⟨start, hstart⟩ := eventually_atTop.mp h
  -- induction on what is left of the quantity at the start
  induction hleft : f start using Nat.strong_induction_on generalizing start with
  | h left ih =>
    have hle : ∀ k, start ≤ k → f k ≤ f start := fun k hk => by
      induction k, hk using Nat.le_induction with
      | base => exact le_rfl
      | succ j hj hle => exact (hstart j hj).1.trans hle
    by_cases hevent : ∃ k, start ≤ k ∧ event k
    · obtain ⟨k, hk, hevent⟩ := hevent
      have hlek := hle k hk
      have hlt := (hstart k hk).2 hevent
      exact ih (f (k + 1)) (by omega) (k + 1) (fun j hj => hstart j (by omega)) rfl
    · exact eventually_atTop.mpr ⟨start, fun k hk hk' => hevent ⟨k, hk, hk'⟩⟩

variable {σ : Type}

/-- The domain `d` has a supply `supply` that widening of states with the property `P` uses up:
joining does not increase it, and widening decreases it unless it changes nothing. -/
structure Domain.Stabilises (d : Domain σ) (P : σ → Prop) (supply : σ → Nat) : Prop where
  preserves : d.Preserves P
  equal_self : ∀ {s}, P s → d.equal s s = .ok true
  join : ∀ {a b}, P a → P b → ∃ t, d.join a b = .ok t ∧ supply t ≤ supply a
  widen : ∀ {a b}, P a → P b → ∃ t, d.widen a b = .ok t ∧ (t = a ∨ supply t < supply a)

namespace Iteration

variable {it : Iteration σ} {run : Run σ} {k : Nat} {n m : Node} {rest : List Node}

/-! ## §1 The run, visit by visit -/

/-- The run after a number of visits. -/
def after (it : Iteration σ) (k : Nat) : Run σ := it.iterate k it.start

/-- One visit more visits the first node in the queue of the run so far. -/
private theorem iterate_succ_of_cons (hqueue : (it.iterate k run).queue = n :: rest) :
    it.iterate (k + 1) run = it.visit { it.iterate k run with queue := rest } n := by
  -- the recursion takes its visits from the front, so the last one is found by induction
  induction k generalizing run with
  | zero =>
    have hrun : run.queue = n :: rest := hqueue
    simp only [iterate, hrun]
  | succ k ih =>
    cases hrun : run.queue with
    | nil =>
      simp only [iterate, hrun] at hqueue
      cases hqueue
    | cons m others =>
      have hstep : ∀ k, it.iterate (k + 1) run =
          it.iterate k (it.visit { run with queue := others } m) := fun k => by
        simp only [iterate, hrun]
      rw [hstep k] at hqueue ⊢
      rw [hstep (k + 1)]
      exact ih hqueue

/-- Without a waiting node, nothing changes any more. -/
private theorem iterate_succ_of_nil (hqueue : (it.iterate k run).queue = []) :
    it.iterate (k + 1) run = it.iterate k run := by
  induction k generalizing run with
  | zero =>
    have hrun : run.queue = [] := hqueue
    simp only [iterate, hrun]
  | succ k ih =>
    cases hrun : run.queue with
    | nil => simp only [iterate, hrun]
    | cons m others =>
      simp only [iterate, hrun] at hqueue ⊢
      exact ih hqueue

theorem reaches_after (it : Iteration σ) (k : Nat) : it.Reaches (it.after k) :=
  reaches_iterate .start k

theorem pop_after (hqueue : (it.after k).queue = n :: rest) :
    it.Shaped { it.after k with queue := rest } ∧ n < it.graph.size :=
  (reaches_after it k).shaped.pop (hqueue ▸ List.Perm.refl _)

/-- The node is visited next, and the visit spreads its state. -/
def SpreadsAt (it : Iteration σ) (k : Nat) (n : Node) : Prop :=
  ∃ rest, (it.after k).queue = n :: rest ∧
    it.Spreads { it.after k with queue := rest } n (it.after (k + 1))

/-- What the next visit does: nothing if no node waits; otherwise the first node in the queue is
visited, and either its state stays, or it is spread. -/
theorem after_cases (it : Iteration σ) (k : Nat) :
    ((it.after k).queue = [] ∧ it.after (k + 1) = it.after k) ∨
    ∃ n rest, (it.after k).queue = n :: rest ∧ n < it.graph.size ∧
      it.after (k + 1) = it.visit { it.after k with queue := rest } n ∧
      (it.Quiet { it.after k with queue := rest } n (it.after (k + 1)) ∨ it.SpreadsAt k n) := by
  cases hqueue : (it.after k).queue with
  | nil => exact .inl ⟨rfl, iterate_succ_of_nil hqueue⟩
  | cons n rest =>
    obtain ⟨hshape, hn⟩ := pop_after hqueue
    have hvisit : it.after (k + 1) = it.visit { it.after k with queue := rest } n :=
      iterate_succ_of_cons hqueue
    refine .inr ⟨n, rest, rfl, hn, hvisit, ?_⟩
    rcases visit_cases hshape.sent n with hquiet | hspreads
    · exact .inl (hvisit ▸ hquiet)
    · exact .inr ⟨rest, hqueue, hvisit ▸ hspreads⟩

/-! ## §2 Loop headers -/

/-- What a loop header can still use up: the merges before the threshold, the supply of its state,
and its first visit. -/
def supply (it : Iteration σ) (φ : σ → Nat) (run : Run σ) (n : Node) : Nat :=
  (it.wideningThreshold - run.merges.getD n 0) + φ (run.before.getD n it.domain.bottom) +
    if run.visited.getD n false then 0 else 1

variable {P : σ → Prop} {φ : σ → Nat}

/-- The merged state of a loop header has at most the supply of the state before, and less if it was
widened and is another state. -/
theorem supply_merge (hd : it.domain.Stabilises P φ) (hstates : run.States P)
    (hheader : it.isHeader n = true) :
    φ (it.merge run n).1 ≤ φ (run.before.getD n it.domain.bottom) ∧
    (it.widensAt run n = true → (it.merge run n).1 = run.before.getD n it.domain.bottom ∨
      φ (it.merge run n).1 < φ (run.before.getD n it.domain.bottom)) := by
  have hbefore := hd.preserves.before hstates n
  have hgathered := hd.preserves.gathered (n := n) hstates
  obtain ⟨hnot, -⟩ | ⟨-, answer, hanswer, hmerged⟩ := merge_cases it run n
  · rw [hheader] at hnot
    cases hnot
  -- the operations answer on these states, so the merged state is their answer
  cases hwidens : it.widensAt run n with
  | true =>
    rw [hwidens, if_pos rfl] at hanswer
    obtain ⟨t, ht, hsupply⟩ := hd.widen hbefore hgathered
    rw [hanswer, ht] at hmerged
    obtain hmerged | ⟨fault, hfault, -⟩ := hmerged
    · obtain rfl := Except.ok.inj hmerged
      exact ⟨hsupply.elim (fun hsame => (congrArg φ hsame).le) le_of_lt, fun _ => hsupply⟩
    · cases hfault
  | false =>
    rw [hwidens, if_neg Bool.false_ne_true] at hanswer
    obtain ⟨t, ht, hsupply⟩ := hd.join hbefore hgathered
    rw [hanswer, ht] at hmerged
    obtain hmerged | ⟨fault, hfault, -⟩ := hmerged
    · obtain rfl := Except.ok.inj hmerged
      exact ⟨hsupply, nofun⟩
    · cases hfault

/-- The merge of a loop header is counted. -/
theorem merges_visit_self (hshape : it.Shaped run) (hn : n < it.graph.size)
    (hheader : it.isHeader n = true) :
    (it.visit run n).merges.getD n 0 = run.merges.getD n 0 + 1 := by
  have hlt : n < run.merges.length := hshape.merges ▸ hn
  rw [visit_merges, if_pos hheader, List.getD_eq_getElem?_getD, List.getElem?_modify,
    List.getD_eq_getElem?_getD, List.getElem?_eq_getElem hlt]
  simp

/-- The counts of other nodes stay. -/
theorem merges_visit_of_ne (hne : n ≠ m) :
    (it.visit run m).merges.getD n 0 = run.merges.getD n 0 := by
  rw [visit_merges]
  split
  · rw [List.getD_eq_getElem?_getD, List.getElem?_modify, List.getD_eq_getElem?_getD]
    simp [Ne.symm hne]
  · rfl

/-- A visit to another node leaves the supply of a node alone. -/
theorem supply_visit_of_ne (hshape : it.Shaped run) (hm : m < it.graph.size) (hne : n ≠ m) :
    it.supply φ (it.visit run m) n = it.supply φ run n := by
  obtain ⟨hvisited, hbefore⟩ := visit_of_ne hshape hm hne
  rw [supply, supply, merges_visit_of_ne hne, hvisited, hbefore]

/-- A visit to a loop header does not increase its supply, and decreases it if it spreads. -/
theorem supply_visit (hd : it.domain.Stabilises P φ) (hshape : it.Shaped run)
    (hstates : run.States P) (hn : n < it.graph.size) (hheader : it.isHeader n = true) :
    it.supply φ (it.visit run n) n ≤ it.supply φ run n ∧
      (it.Spreads run n (it.visit run n) →
        it.supply φ (it.visit run n) n < it.supply φ run n) := by
  have hmerges := merges_visit_self hshape hn hheader
  obtain ⟨hle, hlt⟩ := supply_merge hd hstates hheader
  have hspread : it.Spreads run n (it.visit run n) →
      it.supply φ (it.visit run n) n < it.supply φ run n := by
    intro hspreads
    rw [supply, supply, hmerges, hspreads.visited_self hshape hn, hspreads.before_self hshape hn,
      if_pos rfl]
    -- a visit spreads if it is the first one of the node or gives it another state
    rcases hspreads.fresh with hfresh | hchanged
    · rw [hfresh, if_neg Bool.false_ne_true]
      omega
    by_cases hwidens : it.widensAt run n = true
    · -- the state is another one, so widening has used up some of its supply
      rcases hlt hwidens with hsame | hlt
      · rw [hsame] at hchanged
        exact absurd (hd.equal_self (hd.preserves.before hstates n)) hchanged
      · omega
    · -- one merge fewer is left before the threshold
      have hthreshold : ¬ it.wideningThreshold ≤ run.merges.getD n 0 + 1 := fun h =>
        hwidens (decide_eq_true h)
      omega
  refine ⟨?_, hspread⟩
  rcases visit_cases hshape.sent n with hquiet | hspreads
  · rw [supply, supply, hmerges, hquiet.visited_eq, hquiet.before_eq]
    omega
  · exact (hspread hspreads).le

/-- A loop header spreads finitely often. -/
theorem eventually_not_spreadsAt_header (hd : it.domain.Stabilises P φ)
    (hheader : it.isHeader n = true) : ∀ᶠ k in atTop, ¬ it.SpreadsAt k n := by
  refine eventually_not_of_descent (f := fun k => it.supply φ (it.after k) n)
    (Eventually.of_forall fun k => ?_)
  rcases after_cases it k with ⟨hempty, hsame⟩ | ⟨m, rest, hqueue, hm, hvisit, -⟩
  · rw [hsame]
    refine ⟨le_rfl, fun ⟨rest, hqueue, _⟩ => ?_⟩
    rw [hempty] at hqueue
    cases hqueue
  · obtain ⟨hshape, -⟩ := pop_after hqueue
    have hstates := hd.preserves.states_reaches (reaches_after it k)
    -- a visit of the header itself, or of another node, which leaves its supply alone
    by_cases hnm : n = m
    · subst hnm
      obtain ⟨hle, hlt⟩ := supply_visit hd hshape (hstates.withQueue rest) hm hheader
      rw [hvisit]
      refine ⟨hle, fun ⟨rest', hqueue', hspreads⟩ => hlt ?_⟩
      obtain rfl := (List.cons.inj (hqueue.symm.trans hqueue')).2
      exact hvisit ▸ hspreads
    · rw [hvisit]
      refine ⟨(supply_visit_of_ne hshape hm hnm).le, fun ⟨rest', hqueue', _⟩ => ?_⟩
      exact absurd (List.cons.inj (hqueue'.symm.trans hqueue)).1 hnm

/-! ## §3 The other nodes -/

/-- After the visit of the first node in the queue, a node waits as often as in the rest of the
queue, unless the visit spreads along an edge to it. -/
theorem count_queue_after (hqueue : (it.after k).queue = m :: rest)
    (hsilent : ∀ e ∈ it.graph.edges, e.source = m → e.target = n → ¬ it.SpreadsAt k m) :
    (it.after (k + 1)).queue.count n = rest.count n := by
  rcases after_cases it k with ⟨hempty, -⟩ | ⟨m', rest', hqueue', -, -, hquiet | hspreadsAt⟩
  · rw [hqueue] at hempty
    cases hempty
  · obtain ⟨rfl, rfl⟩ := List.cons.inj (hqueue.symm.trans hqueue')
    rw [hquiet.queue_eq]
  · obtain ⟨rfl, rfl⟩ := List.cons.inj (hqueue.symm.trans hqueue')
    obtain ⟨rest', hqueue', hspreads⟩ := hspreadsAt
    obtain ⟨-, rfl⟩ := List.cons.inj (hqueue.symm.trans hqueue')
    obtain ⟨new, hnext, hnew⟩ := hspreads.exists_new
    -- a new entry in the queue would come from an edge along which the visit spreads
    have hnot : n ∉ new := by
      intro hmem
      obtain ⟨edge, hedge, hsource, htarget⟩ := hnew n hmem
      exact hsilent edge hedge hsource htarget ⟨rest, hqueue, hspreads⟩
    rw [hnext, List.count_append, List.count_eq_zero.mpr hnot, Nat.add_zero]

/-- A node spreads finitely often if the nodes with edges to it do. -/
theorem eventually_not_spreadsAt_of_sources
    (hsources : ∀ᶠ k in atTop, ∀ e ∈ it.graph.edges, e.target = n → ¬ it.SpreadsAt k e.source) :
    ∀ᶠ k in atTop, ¬ it.SpreadsAt k n := by
  -- once the sources are silent, each visit of the node takes one of its places in the queue
  have hunvisited : ∀ᶠ k in atTop, ¬ ∃ rest, (it.after k).queue = n :: rest := by
    refine eventually_not_of_descent (f := fun k => (it.after k).queue.count n) ?_
    filter_upwards [hsources] with k hk
    cases hqueue : (it.after k).queue with
    | nil =>
      have hsame : it.after (k + 1) = it.after k := iterate_succ_of_nil hqueue
      rw [hsame, hqueue]
      exact ⟨le_rfl, nofun⟩
    | cons m rest =>
      have hcount := count_queue_after (n := n) hqueue fun e he hsource htarget =>
        hsource ▸ hk e he htarget
      rw [hcount, List.count_cons]
      refine ⟨Nat.le_add_right _ _, fun ⟨rest', hrest⟩ => ?_⟩
      obtain ⟨rfl, -⟩ := List.cons.inj hrest
      simp
  exact hunvisited.mono fun k hk ⟨rest, hqueue, _⟩ => hk ⟨rest, hqueue⟩

/-- Nodes that wait can be reached from the entry. -/
theorem reached_of_mem_queue {reached : Node → Prop} (hentry : reached it.graph.entry)
    (hedges : ∀ e ∈ it.graph.edges, reached e.source → reached e.target) (k : Nat) :
    ∀ n ∈ (it.after k).queue, reached n := by
  -- the invariant: all waiting nodes are reached
  refine reaches_induction (motive := fun run => ∀ n ∈ run.queue, reached n)
    (fun n hn => List.mem_singleton.mp hn ▸ hentry) ?_ (reaches_after it k)
  intro run m rest _ hshape _ hqueue hreached n hn
  simp only [hqueue.mem_iff, List.forall_mem_cons] at hreached
  rcases visit_cases hshape.sent m with hquiet | hspreads
  · rw [hquiet.queue_eq] at hn
    exact hreached.2 n hn
  · obtain ⟨new, hnext, hnew⟩ := hspreads.exists_new
    rw [hnext] at hn
    rcases List.mem_append.mp hn with hn | hn
    · exact hreached.2 n hn
    · obtain ⟨edge, hedge, hsource, rfl⟩ := hnew n hn
      exact hedges edge hedge (hsource ▸ hreached.1)

/-- Every node spreads finitely often. -/
theorem eventually_not_spreadsAt (hd : it.domain.Stabilises P φ)
    (hheaders : it.headers = it.graph.loopHeaders) (n : Node) :
    ∀ᶠ k in atTop, ¬ it.SpreadsAt k n := by
  obtain ⟨reached, rank, hentry, hedges⟩ := it.graph.exists_rank
  have hreached := reached_of_mem_queue hentry fun e he hsource => (hedges e he hsource).1
  -- induction on the rank; only nodes of lower rank put a node that is no header into the queue
  induction hrank : rank n using Nat.strong_induction_on generalizing n with
  | h r ih =>
    by_cases hheader : it.isHeader n = true
    · exact eventually_not_spreadsAt_header hd hheader
    refine eventually_not_spreadsAt_of_sources ?_
    refine (eventually_all_finite (List.finite_toSet it.graph.edges)).mpr fun e he => ?_
    -- an edge into the node comes from a lower rank, or from a node that never waits
    by_cases hsource : reached e.source
    · by_cases htarget : e.target = n
      · have hlt : rank e.source < rank n := by
          rw [isHeader, hheaders, ← htarget] at hheader
          exact htarget ▸ (hedges e he hsource).2.resolve_left hheader
        exact (ih (rank e.source) (hrank ▸ hlt) e.source rfl).mono fun _ h _ => h
      · exact Eventually.of_forall fun _ h => absurd h htarget
    · exact Eventually.of_forall fun k _ ⟨rest, hqueue, _⟩ =>
        hsource (hreached k _ (hqueue ▸ List.mem_cons_self))

/-- From some visit on, no node waits. -/
theorem eventually_queue_eq_nil (hd : it.domain.Stabilises P φ)
    (hheaders : it.headers = it.graph.loopHeaders) : ∀ᶠ k in atTop, (it.after k).queue = [] := by
  -- the graph is finite, so all its nodes are silent together from some visit on
  have hsilent : ∀ᶠ k in atTop, ∀ n ∈ {n | n < it.graph.size}, ¬ it.SpreadsAt k n :=
    (eventually_all_finite (Set.finite_lt_nat _)).mpr fun n _ =>
      eventually_not_spreadsAt hd hheaders n
  -- then every visit is quiet and shortens the queue
  have hempty : ∀ᶠ k in atTop, ¬ (it.after k).queue ≠ [] := by
    refine eventually_not_of_descent (f := fun k => (it.after k).queue.length) ?_
    filter_upwards [hsilent] with k hk
    rcases after_cases it k with ⟨hempty, hsame⟩ | ⟨n, rest, hqueue, hn, -, hquiet | hspreadsAt⟩
    · rw [hsame]
      exact ⟨le_rfl, fun hne => absurd hempty hne⟩
    · rw [hquiet.queue_eq, hqueue]
      exact ⟨Nat.le_succ _, fun _ => Nat.lt_succ_self _⟩
    · exact absurd hspreadsAt (hk n hn)
  exact hempty.mono fun k hk => not_not.mp hk

end Iteration

/-! ## §4 Boxes -/

namespace Box

/-- The slack of boxes is a supply that widening uses up. -/
theorem stabilises_domain (scope : Scope) :
    (domain scope).Stabilises (Proper scope) (slack scope) where
  preserves :=
    { top := proper_top scope
      bottom := trivial
      join := fun ha hb ht => by
        obtain ⟨t', ht', hproper⟩ := exists_pointwise Interval.join ha hb
        exact Except.ok.inj (ht'.symm.trans ht) ▸ hproper
      widen := fun ha hb ht => by
        obtain ⟨t', ht', hproper⟩ := exists_pointwise Interval.widen ha hb
        exact Except.ok.inj (ht'.symm.trans ht) ▸ hproper
      assign := fun _ ht => proper_assign ht
      forget := fun hs ht => proper_forget hs ht
      constrain := fun _ ht => proper_constrain ht }
  equal_self h := h.equal_self
  join ha hb := by
    obtain ⟨t, ht, -⟩ := exists_pointwise Interval.join ha hb
    exact ⟨t, ht, slack_join_le ha hb ht⟩
  widen ha hb := by
    obtain ⟨t, ht, -⟩ := exists_pointwise Interval.widen ha hb
    exact ⟨t, ht, slack_widen_lt ha hb ht⟩

/-- Widening makes the iteration end: for every graph, every scope and every widening threshold, the
analysis with boxes converges under every visit limit from some bound on. -/
theorem exists_visitLimit_converged (scope : Scope) (g : FlowGraph) (threshold : Nat) :
    ∃ bound, ∀ settings : Settings, settings.wideningThreshold = threshold →
      bound ≤ settings.visitLimit → ((domain scope).analyze settings g).converged = true := by
  have hempty : ∀ᶠ k in atTop,
      (Iteration.after ⟨domain scope, threshold, g, g.loopHeaders⟩ k).queue = [] :=
    Iteration.eventually_queue_eq_nil (stabilises_domain scope) rfl
  obtain ⟨bound, hbound⟩ := eventually_atTop.mp hempty
  refine ⟨bound, fun settings hthreshold hlimit => ?_⟩
  -- the threshold is fixed before the bound, since the supply depends on it
  subst hthreshold
  exact List.isEmpty_iff.mpr (hbound settings.visitLimit hlimit)

/-- Counts up without end. -/
def endlessLoop : FlowGraph where
  nodes := [.assign (.var ⟨"i", .int⟩) (.const 0),
    .assign (.var ⟨"i", .int⟩) (.binary .add (.var ⟨"i", .int⟩) (.const 1)), .goto]
  edges := [⟨0, 1, .fall⟩, ⟨1, 2, .fall⟩, ⟨2, 1, .branch⟩]
  nonempty := by decide
  closed := by decide

/-- Also a loop without an exit is analysed in finitely many visits. -/
theorem exists_visitLimit_converged_endlessLoop :
    ∃ limit, ((domain ⟨["i"], by decide⟩).analyze
      { wideningThreshold := 50, visitLimit := limit } endlessLoop).converged = true := by
  obtain ⟨bound, hbound⟩ := exists_visitLimit_converged ⟨["i"], by decide⟩ endlessLoop 50
  exact ⟨bound, hbound _ rfl le_rfl⟩

end Box

end RangeGuard
