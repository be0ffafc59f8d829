import RangeGuard.Proofs.Analysis.Growth
import RangeGuard.Proofs.Box.Solving

/-!
# The analysis of a counted loop

A loop that creates a collection and indexes it with every number below its size `n`. Its analysis
is followed visit by visit, for every positive `n` and every widening threshold.

All states are ranges of the counter. After the header has been merged `k + 1` times without
widening, the header and the body have the range `[0, k]`, and the next trip through the body brings
`[1, k + 1]` back. The trips end in one of two ways. Either the header reaches `[0, n]`; the body
then has `[0, n - 1]` already. Or the header is widened to `[0, +∞]`; the test of the loop gives the
body `[0, n - 1]`, and what comes back from it changes the header no more. In both cases the body
ends with `[0, n - 1]`, after a number of visits that the threshold alone limits.

## Layers

- *Layer A: boxes* (§1, §2). Joins, widenings and comparisons of ranges of the counter, and what the
  three instructions of the loop do to a range.
- *Layer B: single visits* (§3, §5, §6). Visits and sends whose answers are known are equations
  between runs. The run is written with the upper ends of its ranges as parameters (`loopRun`), so
  that a visit of a node changes one parameter.
- *Layer C: rounds* (§7). A trip through the body and a whole round are chains of visits, and the
  iteration comes to an end by induction on the number of merges until the header is widened.

Most of layer B is closed by `rfl`, since the shape of the graph is fixed. Only the comparisons of
ranges need an argument, because the ends are variables.
-/

namespace RangeGuard

/-! ## §1 Ranges of the counter -/

namespace Box

variable {a b n k m : Int} {p q : Bound} {σ : Store} {s t u : Box} {c : Constraint}

/-- The stores in which the counter lies between two ends. -/
def range (low : Int) (high : Bound) : Box := reachable [⟨.finite low, high⟩]

private theorem isEmpty_range (h : .finite a ≤ p) : Interval.isEmpty ⟨.finite a, p⟩ = false :=
  decide_eq_false fun hlt => hlt h

private theorem ofComponents_range (h : .finite a ≤ p) :
    ofComponents [⟨.finite a, p⟩] = range a p := by
  simp [ofComponents, isEmpty_range h, range]

private theorem wellFormed_range (h : .finite a ≤ p) : WellFormed counterScope (range a p) := by
  refine ⟨rfl, fun i hi => ?_⟩
  obtain rfl := List.mem_singleton.mp hi
  refine ⟨.inr ⟨h, Bound.noConfusion, ?_⟩, isEmpty_range h⟩
  rintro rfl
  exact h

private theorem contains_range :
    Contains counterScope (range a p) σ ↔ a ≤ σ "i" ∧ .finite (σ "i") ≤ p := by
  have hnames : counterScope.names = ["i"] := rfl
  simp [Contains, range, hnames, Scope.size, Interval.mem_iff]

/-- The second range reaches as far as the first or further. -/
theorem join_range (hp : .finite a ≤ p) (hab : a ≤ b) (hpq : p ≤ q) (hq : .finite b ≤ q) :
    join counterScope (range a p) (range b q) = .ok (range a q) := by
  have hjoin : Interval.join ⟨.finite a, p⟩ ⟨.finite b, q⟩ = ⟨.finite a, q⟩ := by
    have hlow : min (Bound.finite a) (.finite b) = .finite a := if_pos hab
    have hhigh : max p q = q := if_pos hpq
    simp [Interval.join, isEmpty_range hp, isEmpty_range hq, hlow, hhigh]
  show Except.ok (ofComponents [Interval.join ⟨.finite a, p⟩ ⟨.finite b, q⟩]) = _
  rw [hjoin, ofComponents_range (Bound.le_trans hp hpq)]

/-- Widening moves the upper end to infinity if it is passed. -/
private theorem widen_range (hp : .finite a ≤ p) (hq : .finite a ≤ q) :
    widen counterScope (range a p) (range a q) = .ok (range a (if p < q then .posInf else p)) := by
  have hwiden : Interval.widen ⟨.finite a, p⟩ ⟨.finite a, q⟩ =
      ⟨.finite a, if p < q then .posInf else p⟩ := by
    simp [Interval.widen, isEmpty_range hp, isEmpty_range hq]
  have hhigh : .finite a ≤ if p < q then Bound.posInf else p := by
    split
    · exact Bound.le_posInf _
    · exact hp
  show Except.ok (ofComponents [Interval.widen ⟨.finite a, p⟩ ⟨.finite a, q⟩]) = _
  rw [hwiden, ofComponents_range hhigh]

private theorem le_range (hp : .finite a ≤ p) (hq : .finite a ≤ q) :
    (domain counterScope).le (range a p) (range a q) = .ok (decide (p ≤ q)) := by
  have hle : (⟨.finite a, p⟩ : Interval) ≤ ⟨.finite a, q⟩ ↔ p ≤ q := by
    show _ ∨ _ ↔ _
    simp [isEmpty_range hp, isEmpty_range hq]
  show Except.ok (decide ((⟨.finite a, p⟩ : Interval) ≤ ⟨.finite a, q⟩) && true) = _
  rw [Bool.and_true, decide_eq_decide.mpr hle]

/-- Ranges with the same lower end are equal if their upper ends are. -/
private theorem equal_range (hp : .finite a ≤ p) (hq : .finite a ≤ q) :
    (domain counterScope).equal (range a p) (range a q) = .ok (decide (p = q)) := by
  rw [Domain.equal, le_range hp hq]
  by_cases hpq : p ≤ q
  · rw [decide_eq_true hpq]
    refine (le_range hq hp).trans ?_
    rw [decide_eq_decide.mpr ⟨Bound.le_antisymm hpq, fun h => h ▸ Bound.le_refl p⟩]
  · have hne : p ≠ q := fun h => hpq (h ▸ Bound.le_refl p)
    rw [decide_eq_false hpq, decide_eq_false hne]
    rfl

/-- Ranges with different upper ends are told apart, in either order. -/
private theorem equal_range_of_lt (ha : a ≤ b) (hlt : b < n) :
    (domain counterScope).equal (range a (.finite b)) (range a (.finite n)) = .ok false ∧
    (domain counterScope).equal (range a (.finite n)) (range a (.finite b)) = .ok false := by
  have han : a ≤ n := by omega
  rw [equal_range ha han, equal_range han ha]
  simp
  omega

/-! ## §2 Instructions of the loop -/

/-- Well-formed boxes with the same stores are the same box. -/
private theorem eq_of_contains_iff (hs : WellFormed counterScope s) (ht : WellFormed counterScope t)
    (h : ∀ σ, Contains counterScope s σ ↔ Contains counterScope t σ) : s = t :=
  le_antisymm hs.proper ht.proper (le_of_forall_contains hs ht fun σ => (h σ).mp)
    (le_of_forall_contains ht hs fun σ => (h σ).mpr)

/-- A constraint on the counter alone is solved exactly, so the answer is known by its stores. -/
theorem constrain_eq_of_contains_iff (hs : WellFormed counterScope s)
    (hlinear : c.expr.linear? = some ⟨[("i", k)], m⟩) (hwithin : c.expr.Within counterScope)
    (hconvex : c.relation ≠ .ne) (ht : WellFormed counterScope t)
    (h : ∀ σ, Contains counterScope t σ ↔
      Contains counterScope s σ ∧ c.relation.Holds (k * σ "i" + m)) :
    constrain counterScope s c = .ok t := by
  obtain ⟨t', ht'⟩ := exists_constrain hs.proper hwithin
  have hwell := (preserves_wellFormed counterScope).constrain hs ht'
  rw [ht', eq_of_contains_iff hwell ht]
  intro σ
  rw [h σ]
  exact contains_constrain_iff hs hlinear hconvex ht'

/-- The test `i >= n`. -/
theorem transfer_test (hs : WellFormed counterScope s) (hreached : s ≠ bottom)
    (ht : WellFormed counterScope t) (hu : WellFormed counterScope u)
    (htaken : ∀ σ, Contains counterScope t σ ↔ Contains counterScope s σ ∧ n ≤ σ "i")
    (hnot : ∀ σ, Contains counterScope u σ ↔ Contains counterScope s σ ∧ σ "i" < n) :
    (domain counterScope).transfer s (.branch .ge (.var counter) (.const n)) =
      .ok (.split t u) := by
  have hwithin : ∀ comparator : Comparator,
      (comparator.constraint (.var "i") (.const n)).expr.Within counterScope := fun comparator =>
    Arith.within_constraint comparator (Arith.within_var (by decide)) (Arith.within_const n)
  -- both sides are solved exactly, so it is enough to know their stores
  have hge : constrain counterScope s (Comparator.ge.constraint (.var "i") (.const n)) = .ok t := by
    apply constrain_eq_of_contains_iff (k := 1) (m := 0 + n * -1) hs rfl (hwithin .ge)
      Relation.noConfusion ht
    intro σ
    rw [htaken σ]
    refine and_congr_right fun _ => ?_
    show _ ↔ 0 ≤ _
    omega
  have hlt : constrain counterScope s (Comparator.lt.constraint (.var "i") (.const n)) = .ok u := by
    apply constrain_eq_of_contains_iff (k := -1) (m := n + 0 * -1) hs rfl (hwithin .lt)
      Relation.noConfusion hu
    intro σ
    rw [hnot σ]
    refine and_congr_right fun _ => ?_
    show _ ↔ 0 < _
    omega
  have hcondition : (domain counterScope).condition s .ge (.var counter) (.const n) =
      .ok (t, u) := by
    show (do
      let taken ← constrain counterScope s (Comparator.ge.constraint (.var "i") (.const n))
      let notTaken ← constrain counterScope s (Comparator.lt.constraint (.var "i") (.const n))
      return (taken, notTaken)) = _
    rw [hge, hlt]
    rfl
  rw [Domain.transfer, if_neg (by simpa [domain, isBottom] using hreached), hcondition]
  rfl

/-- A range below the size goes into the body as a whole. -/
private theorem transfer_test_below (hb : 0 ≤ b) (hbn : b < n) :
    (domain counterScope).transfer (range 0 (.finite b)) (.branch .ge (.var counter) (.const n)) =
      .ok (.split bottom (range 0 (.finite b))) := by
  have hbottom : WellFormed counterScope bottom := trivial
  apply transfer_test (wellFormed_range hb) Box.noConfusion hbottom (wellFormed_range hb)
  · intro σ
    show False ↔ _
    simp only [contains_range, Bound.finite_le_finite, false_iff]
    omega
  · intro σ
    simp only [contains_range, Bound.finite_le_finite]
    omega

/-- A range that reaches the size is cut there. -/
private theorem transfer_test_reached (hn : 0 < n) (hp : .finite n ≤ p) :
    (domain counterScope).transfer (range 0 p) (.branch .ge (.var counter) (.const n)) =
      .ok (.split (range n p) (range 0 (.finite (n - 1)))) := by
  have hzero : Bound.finite 0 ≤ p := Bound.le_trans (Bound.finite_le_finite.mpr hn.le) hp
  have hbelow : Bound.finite 0 ≤ .finite (n - 1) := Bound.finite_le_finite.mpr (by omega)
  apply transfer_test (wellFormed_range hzero) Box.noConfusion (wellFormed_range hp)
    (wellFormed_range hbelow)
  · intro σ
    rw [contains_range, contains_range]
    exact ⟨fun h => ⟨⟨by omega, h.2⟩, h.1⟩, fun h => ⟨h.2, h.1.2⟩⟩
  · intro σ
    rw [contains_range, contains_range, Bound.finite_le_finite]
    -- what is below `n` is below the end of the range too
    have hend (h : σ "i" < n) : Bound.finite (σ "i") ≤ p :=
      Bound.le_trans (Bound.finite_le_finite.mpr h.le) hp
    exact ⟨fun h => ⟨⟨h.1, hend (by omega)⟩, by omega⟩, fun h => ⟨h.1.1, by omega⟩⟩

/-- Adding one shifts a range. -/
private theorem transfer_increment (hb : 0 ≤ b) :
    (domain counterScope).transfer (range 0 (.finite b))
      (.assign (.var counter) (.binary .add (.var counter) (.const 1))) =
        .ok (.uniform (range 1 (.finite (b + 1)))) := by
  have hone : Bound.finite 1 ≤ .finite (b + 1) := Bound.finite_le_finite.mpr (by omega)
  have hsum : (⟨.finite 0, .finite b⟩ : Interval) + .point 1 = ⟨.finite 1, .finite (b + 1)⟩ := by
    show Interval.add _ _ = _
    rw [Interval.add, isEmpty_range hb]
    exact if_neg (Decidable.not_not.mpr hone)
  have hsame : (domain counterScope).transfer (range 0 (.finite b))
      (.assign (.var counter) (.binary .add (.var counter) (.const 1))) =
        .ok (.uniform (ofComponents [(⟨.finite 0, .finite b⟩ : Interval) + .point 1])) := rfl
  rw [hsame, hsum, ofComponents_range hone]

end Box

/-! ## §3 Visits with known answers -/

namespace Iteration

variable {σ : Type} {it : Iteration σ} {run : Run σ} {n : Node} {s old : σ} {o : Outcome σ}
  {e : Nat}
  {d : Edge}

/-- The visit of a node that gets a new state. -/
private theorem visit_of_new (hmerge : it.merge run n = (s, []))
    (hequal : it.domain.equal s (run.before.getD n it.domain.bottom) = .ok false)
    (htransfer : it.domain.transfer s (it.graph.instruction n) = .ok o) :
    it.visit run n = (it.graph.outgoing n).foldl (it.send o)
      { run with
        before := run.before.set n s
        visited := run.visited.set n true
        merges := if it.isHeader n then run.merges.modify n (· + 1) else run.merges
        visits := run.visits + 1 } := by
  have hchanges : it.changes run n s = (true, []) := by
    rw [changes, hequal]
    rfl
  have houtcome : it.outcome n s = (o, []) := by
    rw [outcome, htransfer]
  simp [visit, hmerge, hchanges, spread, houtcome, count]

/-- The visit of a node that keeps its state. -/
private theorem visit_of_same (hmerge : it.merge run n = (s, []))
    (hequal : it.domain.equal s (run.before.getD n it.domain.bottom) = .ok true)
    (hvisited : run.visited.getD n false = true) :
    it.visit run n =
      { run with
        merges := if it.isHeader n then run.merges.modify n (· + 1) else run.merges
        visits := run.visits + 1 } := by
  have hchanges : it.changes run n s = (false, []) := by
    rw [changes, hequal]
    rfl
  simp only [visit, hmerge, hchanges, hvisited]
  simp [count]

/-- Sending a new state along an edge. -/
private theorem send_of_new (hedge : it.graph.edges[e]? = some d)
    (hsent : run.sent.getD e none = some old)
    (hequal : it.domain.equal old (o.along d.kind) = .ok false) :
    it.send o run e =
      { run with
        sent := run.sent.set e (some (o.along d.kind))
        queue := enqueue run.queue d.target } := by
  simp only [send, hedge, hsent, hequal, Bool.false_eq_true, if_false]

/-- Sending the state that the edge carries already. -/
private theorem send_of_same (hedge : it.graph.edges[e]? = some d)
    (hsent : run.sent.getD e none = some old)
    (hequal : it.domain.equal old (o.along d.kind) = .ok true) : it.send o run e = run := by
  simp only [send, hedge, hsent, hequal, if_true]

/-- A node with one edge passes a new state on. -/
theorem visit_relay (hmerge : it.merge run n = (s, []))
    (hequal : it.domain.equal s (run.before.getD n it.domain.bottom) = .ok false)
    (htransfer : it.domain.transfer s (it.graph.instruction n) = .ok o)
    (houtgoing : it.graph.outgoing n = [e]) (hedge : it.graph.edges[e]? = some d)
    (hsent : run.sent.getD e none = some old)
    (hnew : it.domain.equal old (o.along d.kind) = .ok false) :
    it.visit run n =
      { run with
        before := run.before.set n s
        visited := run.visited.set n true
        sent := run.sent.set e (some (o.along d.kind))
        merges := if it.isHeader n then run.merges.modify n (· + 1) else run.merges
        queue := enqueue run.queue d.target
        visits := run.visits + 1 } := by
  rw [visit_of_new hmerge hequal htransfer, houtgoing]
  exact send_of_new hedge hsent hnew

/-- The merged state of a header is the answer of the operation that the threshold asks for. -/
private theorem merge_of_isHeader {t : σ} (hheader : it.isHeader n = true)
    (hgathered : it.gathered run n = (s, []))
    (hanswer : (if it.widensAt run n then it.domain.widen else it.domain.join)
      (run.before.getD n it.domain.bottom) s = .ok t) : it.merge run n = (t, []) := by
  have hstate : it.headerState run n s = (t, []) := by
    unfold headerState
    split at hanswer
    · rename_i hwidens
      simp only [hwidens, if_true, hanswer]
    · rename_i hwidens
      simp only [hwidens, Bool.false_eq_true, if_false, hanswer]
  simp only [merge, hheader, if_true, hgathered, hstate, List.append_nil]

/-- One visit of an iteration, when its result is known. -/
private theorem iterate_succ_of_visit {run' : Run σ} {rest : List Node} {limit : Nat}
    (hqueue : run.queue = n :: rest) (hvisit : it.visit { run with queue := rest } n = run') :
    it.iterate (limit + 1) run = it.iterate limit run' := by
  simp only [iterate, hqueue, hvisit]

private theorem iterate_of_queue_eq_nil (h : run.queue = []) (limit : Nat) :
    it.iterate limit run = run := by
  cases limit <;> simp only [iterate, h]

end Iteration

/-! ## §4 The loop -/

/-- Creates a collection with a number of places and indexes it with the value of a counter, which
goes from zero up to that number. -/
def countedLoop (array counter : String) (n : Int) : FlowGraph where
  nodes := [
    .call ⟨.constructor, some ⟨array, .object "PrinterArray"⟩, some "PrinterArray", "<init>",
      [.const n]⟩,
    .assign (.var ⟨counter, .int⟩) (.const 0),
    .branch .ge (.var ⟨counter, .int⟩) (.const n),
    .call ⟨.virtual, some ⟨array, .object "PrinterArray"⟩, none, "sendJob", [.var ⟨counter, .int⟩]⟩,
    .assign (.var ⟨counter, .int⟩) (.binary .add (.var ⟨counter, .int⟩) (.const 1)),
    .goto,
    .ret]
  edges := [⟨0, 1, .fall⟩, ⟨1, 2, .fall⟩, ⟨2, 6, .branch⟩, ⟨2, 3, .fall⟩, ⟨3, 4, .fall⟩,
    ⟨4, 5, .fall⟩, ⟨5, 2, .branch⟩]
  nonempty := List.cons_ne_nil _ _
  closed := by simp

private theorem loopHeaders_countedLoop (array counter : String) (n : Int) :
    (countedLoop array counter n).loopHeaders = [⟨2, 5⟩] := by
  simp [countedLoop]

open Box

/-- What the analysis of a counted loop depends on. -/
structure LoopInput where
  /-- The local that refers to the collection. -/
  array : String
  /-- The size of the collection. -/
  size : Int
  /-- The merge from which on the header is widened. -/
  threshold : Nat
  /-- The collection has a place. -/
  size_pos : 0 < size

/-- The iteration over the loop, with boxes for its counter. -/
def LoopInput.iteration (l : LoopInput) : Iteration Box where
  domain := domain counterScope
  wideningThreshold := l.threshold
  graph := countedLoop l.array "i" l.size
  headers := [⟨2, 5⟩]

/-- The data of the iteration once every node has been visited. The ranges of the header and of the
nodes of the body are given by their upper ends: `head` at the header, `body` on the edge into the
body, and `call`, `step` and `back` at its three nodes. An edge carries what the last visit of its
source sent along it. -/
def loopRun (head : Bound) (exit done : Box) (body call step back : Int) (merges visits : Nat)
    (queue : List Node) : Run Box where
  before := [top counterScope, top counterScope, range 0 head, range 0 (.finite call),
    range 0 (.finite step), range 1 (.finite back), done]
  visited := List.replicate 7 true
  sent := [top counterScope, range 0 (.finite 0), exit, range 0 (.finite body),
    range 0 (.finite call), range 1 (.finite (step + 1)), range 1 (.finite back)].map some
  merges := [0, 0, merges, 0, 0, 0, 0]
  failures := #[]
  queue := queue
  visits := visits

namespace LoopInput

variable {l : LoopInput} {b body call step back : Int} {m v : Nat} {head p : Bound}
  {exit done : Box}
  {queue : List Node}

/-! ## §5 Visits of the body -/

/-- The indexing call passes the range of the counter on. -/
private theorem visit_call (hcall : 0 ≤ call) (hlt : call < body) :
    l.iteration.visit (loopRun head exit done body call step back m v queue) 3 =
      loopRun head exit done body body step back m (v + 1) (Iteration.enqueue queue 4) := by
  obtain ⟨hnew, hequal⟩ := equal_range_of_lt hcall hlt
  apply Iteration.visit_relay (s := range 0 (.finite body)) (o := .uniform (range 0 (.finite body)))
    (e := 4) (d := ⟨3, 4, .fall⟩) rfl ?_ rfl rfl rfl rfl
  · exact hnew
  · exact hequal

/-- The increment passes the range on, shifted by one. -/
private theorem visit_step (hstep : 0 ≤ step) (hlt : step < call) :
    l.iteration.visit (loopRun head exit done body call step back m v queue) 4 =
      loopRun head exit done body call call back m (v + 1) (Iteration.enqueue queue 5) := by
  have hcall : 0 ≤ call := by omega
  have hone : 1 ≤ step + 1 := by omega
  obtain ⟨-, hequal⟩ := equal_range_of_lt hstep hlt
  obtain ⟨hnew, -⟩ := equal_range_of_lt hone (show step + 1 < call + 1 by omega)
  apply Iteration.visit_relay (s := range 0 (.finite call))
    (o := .uniform (range 1 (.finite (call + 1)))) (e := 5) (d := ⟨4, 5, .fall⟩) rfl ?_
    (transfer_increment hcall) rfl rfl rfl
  · exact hnew
  · exact hequal

/-- The jump passes the shifted range back to the header. -/
private theorem visit_back (hback : 1 ≤ back) (hlt : back < step + 1) :
    l.iteration.visit (loopRun head exit done body call step back m v queue) 5 =
      loopRun head exit done body call step (step + 1) m (v + 1) (Iteration.enqueue queue 2) := by
  obtain ⟨hnew, hequal⟩ := equal_range_of_lt hback hlt
  apply Iteration.visit_relay (s := range 1 (.finite (step + 1)))
    (o := .uniform (range 1 (.finite (step + 1)))) (e := 6) (d := ⟨5, 2, .branch⟩) rfl ?_ rfl
      rfl rfl rfl
  · exact hnew
  · exact hequal

/-- A trip through the body: a larger range passes through its nodes and comes back to the header.
-/
theorem iterate_body (hb : 0 ≤ b) (hlt : b < body) (limit : Nat) :
    l.iteration.iterate (limit + 3) (loopRun head exit done body b b (b + 1) m v [3]) =
      l.iteration.iterate limit
        (loopRun head exit done body body body (body + 1) m (v + 3) [2]) :=
  calc l.iteration.iterate (limit + 3) (loopRun head exit done body b b (b + 1) m v [3])
    _ = l.iteration.iterate (limit + 2)
        (loopRun head exit done body body b (b + 1) m (v + 1) [4]) :=
      Iteration.iterate_succ_of_visit rfl (visit_call hb hlt)
    _ = l.iteration.iterate (limit + 1)
        (loopRun head exit done body body body (b + 1) m (v + 2) [5]) :=
      Iteration.iterate_succ_of_visit rfl (visit_step hb hlt)
    _ = l.iteration.iterate limit
        (loopRun head exit done body body body (body + 1) m (v + 3) [2]) :=
      Iteration.iterate_succ_of_visit rfl (visit_back (by omega) (by omega))

/-! ## §6 Visits of the exit and of the header -/

private theorem visit_exit :
    l.iteration.visit (loopRun head (range l.size p) bottom body call step back m v queue) 6 =
      loopRun head (range l.size p) (range l.size p) body call step back m (v + 1) queue :=
  Iteration.visit_of_new (s := range l.size p) (o := .uniform (range l.size p)) rfl rfl rfl

/-- What arrives at the header, from before the loop and from its body. -/
theorem gathered_header (hback : 1 ≤ back) :
    l.iteration.gathered (loopRun head exit done body call step back m v queue) 2 =
      (range 0 (.finite back), []) := by
  have hzero : Bound.finite 0 ≤ .finite back := Bound.finite_le_finite.mpr (by omega)
  have hjoin : join counterScope (range 0 (.finite 0)) (range 1 (.finite back)) =
      .ok (range 0 (.finite back)) := join_range (Bound.le_refl _) (by decide) hzero hback
  have hinflow : l.iteration.inflow (loopRun head exit done body call step back m v queue) 2 =
      join counterScope (range 0 (.finite 0)) (range 1 (.finite back)) >>= pure := rfl
  rw [Iteration.gathered, hinflow, hjoin]
  rfl

/-- The merge of the header, from the answer of its join or widening. -/
theorem merge_header (hback : 1 ≤ back)
    (hanswer : (if decide (l.threshold ≤ m + 1) then widen counterScope else join counterScope)
      (range 0 head) (range 0 (.finite back)) = .ok (range 0 p)) :
    l.iteration.merge (loopRun head exit done body call step back m v queue) 2 = (range 0 p, []) :=
  Iteration.merge_of_isHeader rfl (gathered_header hback) hanswer

/-- A trip that brings one more number back extends the header by it, or widens the header. -/
theorem merge_header_succ (hb : 0 ≤ b) :
    l.iteration.merge (loopRun (.finite b) exit done body call step (b + 1) m v queue) 2 =
      (range 0 (if l.threshold ≤ m + 1 then .posInf else .finite (b + 1)), []) := by
  have hlt : b < b + 1 := by omega
  have hzero : 0 ≤ b + 1 := by omega
  apply merge_header (by omega)
  -- from the threshold on the upper end is passed and jumps; before it is joined
  by_cases hthreshold : l.threshold ≤ m + 1
  · rw [if_pos hthreshold, if_pos (decide_eq_true hthreshold), widen_range hb hzero,
      if_pos (by simp)]
  · rw [if_neg hthreshold, if_neg (by simpa using hthreshold)]
    exact join_range hb le_rfl hlt.le hzero

/-- A header with a new state sends it to the exit and into the body. -/
private theorem visit_header {o : Outcome Box}
    (hmerge : l.iteration.merge (loopRun head exit done body call step back m v queue) 2 =
      (range 0 p, []))
    (hequal : (domain counterScope).equal (range 0 p) (range 0 head) = .ok false)
    (htransfer : (domain counterScope).transfer (range 0 p)
      (.branch .ge (.var counter) (.const l.size)) = .ok o) :
    l.iteration.visit (loopRun head exit done body call step back m v queue) 2 =
      l.iteration.send o (l.iteration.send o
        (loopRun p exit done body call step back (m + 1) (v + 1) queue) 2) 3 :=
  Iteration.visit_of_new hmerge hequal htransfer

private theorem send_exit (u : Box) :
    l.iteration.send (.split (range l.size p) u)
        (loopRun head bottom done body call step back m v queue) 2 =
      loopRun head (range l.size p) done body call step back m v (Iteration.enqueue queue 6) :=
  Iteration.send_of_new (d := ⟨2, 6, .branch⟩) rfl rfl rfl

private theorem send_exit_bottom (u : Box) :
    l.iteration.send (.split bottom u) (loopRun head bottom done body call step back m v queue) 2 =
      loopRun head bottom done body call step back m v queue :=
  Iteration.send_of_same (d := ⟨2, 6, .branch⟩) rfl rfl rfl

private theorem send_body (hbody : 0 ≤ body) (hlt : body < b) (t : Box) :
    l.iteration.send (.split t (range 0 (.finite b)))
        (loopRun head exit done body call step back m v queue) 3 =
      loopRun head exit done b call step back m v (Iteration.enqueue queue 3) :=
  Iteration.send_of_new (d := ⟨2, 3, .fall⟩) rfl rfl (equal_range_of_lt hbody hlt).1

private theorem send_body_same (hbody : 0 ≤ body) (t : Box) :
    l.iteration.send (.split t (range 0 (.finite body)))
        (loopRun head exit done body call step back m v queue) 3 =
      loopRun head exit done body call step back m v queue := by
  apply Iteration.send_of_same (d := ⟨2, 3, .fall⟩) rfl rfl
  exact (equal_range hbody hbody).trans (by simp)

/-- A header that stays below the size sends a larger range into the body. -/
theorem visit_header_below (hb : 0 ≤ b) (hlt : b + 1 < l.size)
    (hthreshold : ¬ l.threshold ≤ m + 1) :
    l.iteration.visit (loopRun (.finite b) bottom done b call step (b + 1) m v []) 2 =
      loopRun (.finite (b + 1)) bottom done (b + 1) call step (b + 1) (m + 1) (v + 1) [3] := by
  have hnext : b < b + 1 := by omega
  rw [visit_header (p := .finite (b + 1)) (by rw [merge_header_succ hb, if_neg hthreshold])
    (equal_range_of_lt hb hnext).2 (transfer_test_below (by omega) hlt), send_exit_bottom,
    send_body hb hnext]
  rfl

/-- A header that reaches the size sends its upper part to the exit, and all numbers below the size
into the body. -/
theorem visit_header_reached (hb : 0 ≤ b)
    (hp : p = if l.threshold ≤ m + 1 then .posInf else .finite (b + 1))
    (hreached : .finite l.size ≤ p) :
    l.iteration.visit (loopRun (.finite b) bottom done body call step (b + 1) m v []) 2 =
      l.iteration.send (.split (range l.size p) (range 0 (.finite (l.size - 1))))
        (loopRun p (range l.size p) done body call step (b + 1) (m + 1) (v + 1) [6]) 3 := by
  have hzero : Bound.finite 0 ≤ p :=
    Bound.le_trans (Bound.finite_le_finite.mpr l.size_pos.le) hreached
  -- the header has a new state, whether it was widened or extended
  have hne : p ≠ .finite b := by
    rw [hp]
    split <;> simp
  have hequal : (domain counterScope).equal (range 0 p) (range 0 (.finite b)) = .ok false := by
    rw [equal_range hzero hb, decide_eq_false hne]
  rw [visit_header (by rw [merge_header_succ hb, hp]) hequal
    (transfer_test_reached l.size_pos hreached), send_exit]
  rfl

/-- A header that has been widened stays as it is. -/
theorem visit_header_widened (hback : 1 ≤ back) (hthreshold : l.threshold ≤ m + 1) :
    l.iteration.visit (loopRun .posInf exit done body call step back m v queue) 2 =
      loopRun .posInf exit done body call step back (m + 1) (v + 1) queue := by
  have hzero : 0 ≤ back := by omega
  have hmerge : l.iteration.merge (loopRun .posInf exit done body call step back m v queue) 2 =
      (range 0 .posInf, []) := by
    apply merge_header hback
    rw [if_pos (decide_eq_true hthreshold), widen_range (Bound.le_posInf _) hzero]
    rfl
  exact Iteration.visit_of_same hmerge (equal_range (Bound.le_posInf _) (Bound.le_posInf _)) rfl

end LoopInput

/-! ## §7 Rounds -/

/-- The iteration when the header has been merged `k + 1` times and is about to be merged again. -/
def roundRun (k : Nat) : Run Box :=
  loopRun (.finite k) bottom bottom k k k (k + 1) (k + 1) (4 * k + 7) [2]

/-- The iteration at its end, over a loop up to `n`. -/
def settledRun (n : Int) (head : Bound) (merges visits : Nat) : Run Box :=
  loopRun head (range n head) (range n head) (n - 1) (n - 1) (n - 1) (n - 1 + 1) merges visits []

/-- The iteration during its first round. The nodes from the entry on have been visited, and the
exit perhaps; the edges from the first one on carry a state. -/
def entryRun (before sent : List Box) (exited : Bool) (merges visits : Nat) (queue : List Node) :
    Run Box where
  before := before ++ List.replicate (7 - before.length) bottom
  visited := List.replicate before.length true ++ List.replicate (6 - before.length) false ++
    [exited]
  sent := sent.map some ++ List.replicate (7 - sent.length) none
  merges := [0, 0, merges, 0, 0, 0, 0]
  failures := #[]
  queue := queue
  visits := visits

namespace LoopInput

variable {l : LoopInput} {k : Nat} (limit : Nat)

/-- The first visit of the header: the exit gets nothing, and the body gets zero. -/
theorem visit_header_first :
    l.iteration.visit (entryRun [top counterScope, top counterScope]
        [top counterScope, range 0 (.finite 0)] false 0 2 []) 2 =
      entryRun [top counterScope, top counterScope, range 0 (.finite 0)]
        [top counterScope, range 0 (.finite 0), bottom, range 0 (.finite 0)] false 1 3 [6, 3] := by
  have hmerge : l.iteration.merge (entryRun [top counterScope, top counterScope]
      [top counterScope, range 0 (.finite 0)] false 0 2 []) 2 = (range 0 (.finite 0), []) := by
    apply Iteration.merge_of_isHeader rfl rfl
    -- bottom is neutral for the join and for widening
    split <;> rfl
  rw [Iteration.visit_of_new hmerge rfl (transfer_test_below le_rfl l.size_pos)]
  rfl

/-- The first round. -/
theorem iterate_start :
    l.iteration.iterate (limit + 7) l.iteration.start = l.iteration.iterate limit (roundRun 0) := by
  let all := top counterScope
  let zero := range 0 (.finite 0)
  let one := range 1 (.finite 1)
  calc l.iteration.iterate (limit + 7) l.iteration.start
    _ = l.iteration.iterate (limit + 6) (entryRun [all] [all] false 0 1 [1]) :=
      Iteration.iterate_succ_of_visit rfl rfl
    _ = l.iteration.iterate (limit + 5) (entryRun [all, all] [all, zero] false 0 2 [2]) :=
      Iteration.iterate_succ_of_visit rfl rfl
    _ = l.iteration.iterate (limit + 4)
        (entryRun [all, all, zero] [all, zero, bottom, zero] false 1 3 [6, 3]) :=
      Iteration.iterate_succ_of_visit rfl visit_header_first
    _ = l.iteration.iterate (limit + 3)
        (entryRun [all, all, zero] [all, zero, bottom, zero] true 1 4 [3]) :=
      Iteration.iterate_succ_of_visit rfl rfl
    _ = l.iteration.iterate (limit + 2)
        (entryRun [all, all, zero, zero] [all, zero, bottom, zero, zero] true 1 5 [4]) :=
      Iteration.iterate_succ_of_visit rfl rfl
    _ = l.iteration.iterate (limit + 1)
        (entryRun [all, all, zero, zero, zero] [all, zero, bottom, zero, zero, one] true 1 6 [5]) :=
      Iteration.iterate_succ_of_visit rfl rfl
    _ = l.iteration.iterate limit (roundRun 0) := Iteration.iterate_succ_of_visit rfl rfl

/-- A round without widening. -/
theorem iterate_round (hk : k + 1 < l.size) (hthreshold : ¬ l.threshold ≤ k + 2) :
    l.iteration.iterate (limit + 4) (roundRun k) =
      l.iteration.iterate limit (roundRun (k + 1)) := by
  have hzero : (0 : Int) ≤ k := by omega
  calc l.iteration.iterate (limit + 4) (roundRun k)
    _ = l.iteration.iterate (limit + 3)
        (loopRun (.finite (k + 1)) bottom bottom (k + 1) k k (k + 1) (k + 2) (4 * k + 8) [3]) :=
      Iteration.iterate_succ_of_visit rfl (visit_header_below hzero hk hthreshold)
    _ = l.iteration.iterate limit (roundRun (k + 1)) := iterate_body hzero (by omega) limit

/-- The last round, if the body has all numbers below the size already. -/
theorem exists_iterate_last (hk : k + 1 = l.size) : ∃ head,
    l.iteration.iterate (limit + 2) (roundRun k) = settledRun l.size head (k + 2) (4 * k + 9) := by
  have hzero : (0 : Int) ≤ k := by omega
  have hsub : l.size - 1 = k := by omega
  refine ⟨if l.threshold ≤ k + 2 then .posInf else .finite (k + 1), ?_⟩
  -- whether or not the header is widened now, it reaches the size
  generalize hp : (if l.threshold ≤ k + 2 then Bound.posInf else .finite (k + 1)) = p
  have hreached : Bound.finite l.size ≤ p := by
    rw [← hp, ← hk]
    split
    · exact Bound.le_posInf _
    · exact Bound.le_refl _
  have hheader : l.iteration.visit
      (loopRun (.finite k) bottom bottom k k k (k + 1) (k + 1) (4 * k + 7) []) 2 =
        loopRun p (range l.size p) bottom k k k (k + 1) (k + 2) (4 * k + 8) [6] := by
    rw [visit_header_reached hzero hp.symm hreached, hsub, send_body_same hzero]
  have hsettled : settledRun l.size p (k + 2) (4 * k + 9) =
      loopRun p (range l.size p) (range l.size p) k k k (k + 1) (k + 2) (4 * k + 9) [] := by
    rw [settledRun, hsub]
  rw [hsettled]
  calc l.iteration.iterate (limit + 2) (roundRun k)
    _ = l.iteration.iterate (limit + 1)
        (loopRun p (range l.size p) bottom k k k (k + 1) (k + 2) (4 * k + 8) [6]) :=
      Iteration.iterate_succ_of_visit rfl hheader
    _ = l.iteration.iterate limit
        (loopRun p (range l.size p) (range l.size p) k k k (k + 1) (k + 2) (4 * k + 9) []) :=
      Iteration.iterate_succ_of_visit rfl visit_exit
    _ = loopRun p (range l.size p) (range l.size p) k k k (k + 1) (k + 2) (4 * k + 9) [] :=
      Iteration.iterate_of_queue_eq_nil rfl limit

/-- The last rounds, if the header is widened before. -/
theorem iterate_widened (hk : k + 1 < l.size) (hthreshold : l.threshold ≤ k + 2) :
    l.iteration.iterate (limit + 6) (roundRun k) =
      settledRun l.size .posInf (k + 3) (4 * k + 13) := by
  have hzero : (0 : Int) ≤ k := by omega
  have hlt : (k : Int) < l.size - 1 := by omega
  have hheader : l.iteration.visit
      (loopRun (.finite k) bottom bottom k k k (k + 1) (k + 1) (4 * k + 7) []) 2 =
        loopRun .posInf (range l.size .posInf) bottom (l.size - 1) k k (k + 1) (k + 2) (4 * k + 8)
          [6, 3] := by
    rw [visit_header_reached hzero (if_pos hthreshold).symm (Bound.le_posInf _),
      send_body hzero hlt]
    rfl
  calc l.iteration.iterate (limit + 6) (roundRun k)
    _ = l.iteration.iterate (limit + 5)
        (loopRun .posInf (range l.size .posInf) bottom (l.size - 1) k k
        (k + 1) (k + 2) (4 * k + 8) [6, 3]) := Iteration.iterate_succ_of_visit rfl hheader
    _ = l.iteration.iterate (limit + 4)
        (loopRun .posInf (range l.size .posInf) (range l.size .posInf)
        (l.size - 1) k k (k + 1) (k + 2) (4 * k + 9) [3]) :=
      Iteration.iterate_succ_of_visit rfl visit_exit
    _ = l.iteration.iterate (limit + 1)
        (loopRun .posInf (range l.size .posInf) (range l.size .posInf)
        (l.size - 1) (l.size - 1) (l.size - 1) (l.size - 1 + 1) (k + 2) (4 * k + 12) [2]) :=
      iterate_body hzero hlt (limit + 1)
    _ = l.iteration.iterate limit (settledRun l.size .posInf (k + 3) (4 * k + 13)) :=
      Iteration.iterate_succ_of_visit rfl (visit_header_widened (by omega) (by omega))
    _ = settledRun l.size .posInf (k + 3) (4 * k + 13) :=
      Iteration.iterate_of_queue_eq_nil rfl limit

/-- From each round on the iteration comes to an end, and how many visits that takes at most depends
on the threshold alone. -/
theorem exists_iterate_round (hk : k < l.size) (hlimit : 4 * (l.threshold - (k + 2)) + 6 ≤ limit) :
    ∃ head merges visits,
      l.iteration.iterate limit (roundRun k) = settledRun l.size head merges visits := by
  -- by induction on the number of merges until the header is widened
  induction hleft : l.threshold - (k + 2) generalizing k limit with
  | zero =>
    obtain ⟨limit, rfl⟩ : ∃ more, limit = more + 6 := ⟨limit - 6, by omega⟩
    -- the threshold is reached: the header is at the size already, or widened now
    by_cases hlast : k + 1 = l.size
    · obtain ⟨head, hrun⟩ := exists_iterate_last (limit + 4) hlast
      exact ⟨head, _, _, hrun⟩
    · exact ⟨_, _, _, iterate_widened limit (by omega) (by omega)⟩
  | succ left ih =>
    obtain ⟨limit, rfl⟩ : ∃ more, limit = more + 4 := ⟨limit - 4, by omega⟩
    by_cases hlast : k + 1 = l.size
    · obtain ⟨head, hrun⟩ := exists_iterate_last (limit + 2) hlast
      exact ⟨head, _, _, hrun⟩
    · rw [iterate_round limit (by omega) (by omega)]
      exact ih limit (by omega) (by omega) (by omega)

/-- The iteration of the analysis is the one that is followed here. -/
private theorem iteration_eq_of (l : LoopInput) {settings : Settings}
    (hthreshold : settings.wideningThreshold = l.threshold) :
    Iteration.of (domain counterScope) settings (countedLoop l.array "i" l.size) = l.iteration := by
  rw [Iteration.of, loopHeaders_countedLoop, hthreshold]
  rfl

end LoopInput

/-- The analysis of the loop over its counter ends within a number of visits that depends on the
threshold alone, and the indexing call has exactly the numbers below the size. -/
theorem analyze_countedLoop (array : String) {n : Int} (hn : 0 < n) {settings : Settings}
    (hlimit : 4 * (settings.wideningThreshold - 2) + 13 ≤ settings.visitLimit) :
    ((domain counterScope).analyze settings (countedLoop array "i" n)).converged = true ∧
    ((domain counterScope).analyze settings (countedLoop array "i" n)).at (domain counterScope) 3 =
      range 0 (.finite (n - 1)) := by
  let l : LoopInput := ⟨array, n, settings.wideningThreshold, hn⟩
  -- seven visits for the first round, the rest for the others
  obtain ⟨limit, hvisits⟩ : ∃ limit, settings.visitLimit = limit + 7 :=
    ⟨settings.visitLimit - 7, by omega⟩
  have hleft : 4 * (l.threshold - (0 + 2)) + 6 ≤ limit := by
    show 4 * (settings.wideningThreshold - 2) + 6 ≤ limit
    omega
  obtain ⟨head, merges, visits, hrun⟩ := l.exists_iterate_round limit hn hleft
  have hanalyze : (domain counterScope).analyze settings (countedLoop array "i" n) =
      (settledRun n head merges visits).analysis := by
    rw [Domain.analyze, l.iteration_eq_of rfl, hvisits, LoopInput.iterate_start, hrun]
  rw [hanalyze]
  exact ⟨rfl, rfl⟩

end RangeGuard
