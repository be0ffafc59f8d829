import Mathlib.Data.List.Forall2
import RangeGuard.Proofs.Analysis.Visit
import RangeGuard.Proofs.Domain.Soundness

/-!
# Iterations in step

Two iterations over graphs of the same shape, in domains whose states are matched by a relation. If
matched states have the same inclusions, and joins, widenings and transfers of matched states are
matched, the two iterations go the same way: each visit finds the same changes and queues the same
nodes.

The proof follows one visit through its parts, in the order in which they are computed: what
arrives, the merged state, the test for a change, the outcome, sending. Each of them takes matched
data to matched data. The control data of the two runs, that is the queue, the counts and the
visited nodes, are not merely matched but equal, because they depend on answers that are equal.

The relation is a parameter. The one application in this library is renaming, where boxes over two
scopes are matched.
-/

namespace RangeGuard

/-! ## §1 Matched tables -/

section Tables

variable {α β : Type} {R : α → β → Prop} {l : List α} {l' : List β} {a : α} {b : β}

/-- Matched tables are matched at every place, also beyond their ends. -/
private theorem forall₂_getD (h : List.Forall₂ R l l') (hab : R a b) (i : Nat) :
    R (l.getD i a) (l'.getD i b) := by
  induction h generalizing i with
  | nil => exact hab
  | cons hhead _ ih =>
    cases i with
    | zero => exact hhead
    | succ i => exact ih i

/-- Replacing matched entries keeps tables matched. -/
private theorem forall₂_set (h : List.Forall₂ R l l') (hab : R a b) (i : Nat) :
    List.Forall₂ R (l.set i a) (l'.set i b) := by
  induction h generalizing i with
  | nil => exact .nil
  | cons hhead htail ih =>
    cases i with
    | zero => exact .cons hab htail
    | succ i => exact .cons hhead (ih i)

private theorem forall₂_replicate (hab : R a b) (n : Nat) :
    List.Forall₂ R (List.replicate n a) (List.replicate n b) := by
  induction n with
  | zero => exact .nil
  | succ n ih => exact .cons hab ih

end Tables

/-- Both operations answer, and their answers are matched. -/
def BothAnswer {ε ε' α β : Type} (R : α → β → Prop) (x : Except ε α) (y : Except ε' β) : Prop :=
  ∃ a b, x = .ok a ∧ y = .ok b ∧ R a b

/-- The run of two iterations that are in step: states are matched, and the rest is the same. -/
structure Run.Matched {α β : Type} (R : α → β → Prop) (run : Run α) (run' : Run β) : Prop where
  before : List.Forall₂ R run.before run'.before
  visited : run'.visited = run.visited
  sent : List.Forall₂ (Option.Rel R) run.sent run'.sent
  merges : run'.merges = run.merges
  queue : run'.queue = run.queue
  visits : run'.visits = run.visits

namespace Iteration

variable {α β : Type} {R : α → β → Prop} {it : Iteration α} {it' : Iteration β} {run : Run α}
  {run' : Run β} {a b s : α} {a' b' s' : β} {n : Node}

/-- Two iterations over graphs of one shape, whose domains answer alike on matched states. -/
structure InStep (R : α → β → Prop) (it : Iteration α) (it' : Iteration β) : Prop where
  edges : it'.graph.edges = it.graph.edges
  size : it'.graph.size = it.graph.size
  headers : it'.headers = it.headers
  threshold : it'.wideningThreshold = it.wideningThreshold
  top : R it.domain.top it'.domain.top
  bottom : R it.domain.bottom it'.domain.bottom
  le : ∀ {a b a' b'}, R a a' → R b b' → it'.domain.le a' b' = it.domain.le a b
  join : ∀ {a b a' b'}, R a a' → R b b' →
    BothAnswer R (it.domain.join a b) (it'.domain.join a' b')
  widen : ∀ {a b a' b'}, R a a' → R b b' →
    BothAnswer R (it.domain.widen a b) (it'.domain.widen a' b')
  transfer : ∀ {s s'} (n : Node), R s s' →
    BothAnswer (fun o o' => ∀ kind, R (o.along kind) (o'.along kind))
      (it.domain.transfer s (it.graph.instruction n))
      (it'.domain.transfer s' (it'.graph.instruction n))

namespace InStep

/-! ## §2 Parts of a visit -/

private theorem isHeader_eq (h : InStep R it it') (n : Node) : it'.isHeader n = it.isHeader n := by
  rw [isHeader, isHeader, h.headers]

private theorem entry_eq (_ : InStep R it it') : it'.graph.entry = it.graph.entry := rfl

/-- The edges have the same numbers in both graphs. -/
private theorem incoming_eq (h : InStep R it it') (n : Node) :
    it'.graph.incoming n = it.graph.incoming n := by
  simp only [FlowGraph.incoming_eq_filter, h.edges]

private theorem outgoing_eq (h : InStep R it it') (n : Node) :
    it'.graph.outgoing n = it.graph.outgoing n := by
  simp only [FlowGraph.outgoing_eq_filter, h.edges]

/-- Matched states are found equal together. -/
theorem equal (h : InStep R it it') (ha : R a a') (hb : R b b') :
    it'.domain.equal a' b' = it.domain.equal a b := by
  rw [Domain.equal, Domain.equal, h.le ha hb, h.le hb ha]

/-- The states before a node are matched. -/
theorem before (h : InStep R it it') (hrun : run.Matched R run') (n : Node) :
    R (run.before.getD n it.domain.bottom) (run'.before.getD n it'.domain.bottom) :=
  forall₂_getD hrun.before h.bottom n

/-- Joins of matched lists of states are matched. -/
theorem foldlM_join (h : InStep R it it') {states : List α} {states' : List β}
    (hstates : List.Forall₂ R states states') (ha : R a a') :
    BothAnswer R (states.foldlM it.domain.join a) (states'.foldlM it'.domain.join a') := by
  induction hstates generalizing a a' with
  | nil => exact ⟨a, a', rfl, rfl, ha⟩
  | cons hb _ ih =>
    -- both joins answer, with matched states to go on from
    obtain ⟨t, t', ht, ht', hmatched⟩ := h.join ha hb
    obtain ⟨r, r', hr, hr', hresult⟩ := ih hmatched
    exact ⟨r, r', bind_eq_ok_iff.mpr ⟨t, ht, hr⟩, bind_eq_ok_iff.mpr ⟨t', ht', hr'⟩, hresult⟩

/-- What arrives is matched. -/
theorem gathered (h : InStep R it it') (hrun : run.Matched R run') (n : Node) :
    R (it.gathered run n).1 (it'.gathered run' n).1 := by
  have hstart : R (if n = it.graph.entry then it.domain.top else it.domain.bottom)
      (if n = it'.graph.entry then it'.domain.top else it'.domain.bottom) := by
    rw [h.entry_eq]
    split
    · exact h.top
    · exact h.bottom
  -- both iterations read their tables at the same edges
  have hentries : Relator.LiftFun Eq (Option.Rel R) (fun e => run.sent.getD e none)
      (fun e => run'.sent.getD e none) := by
    rintro e _ rfl
    exact forall₂_getD hrun.sent Option.Rel.none e
  have hsent := List.rel_filterMap hentries (List.forall₂_refl (it.graph.incoming n))
  obtain ⟨t, t', ht, ht', hmatched⟩ := h.foldlM_join hsent hstart
  rw [← h.incoming_eq n] at ht'
  have hinflow : it.inflow run n = .ok t := ht
  have hinflow' : it'.inflow run' n = .ok t' := ht'
  simpa only [Iteration.gathered, hinflow, hinflow'] using hmatched

/-- Merged states are matched, since both headers have been merged equally often. -/
theorem merge (h : InStep R it it') (hrun : run.Matched R run') (n : Node) :
    R (it.merge run n).1 (it'.merge run' n).1 := by
  have hgathered := h.gathered hrun n
  have hbefore := h.before hrun n
  have hwidens : it'.widensAt run' n = it.widensAt run n := by
    rw [widensAt, widensAt, h.threshold, hrun.merges]
  -- both iterations take the same branch
  simp only [Iteration.merge, headerState, h.isHeader_eq n, hwidens]
  split
  · split
    · obtain ⟨t, t', ht, ht', hmatched⟩ := h.widen hbefore hgathered
      simpa only [ht, ht'] using hmatched
    · obtain ⟨t, t', ht, ht', hmatched⟩ := h.join hbefore hgathered
      simpa only [ht, ht'] using hmatched
  · exact hgathered

/-- Outcomes of matched states are matched on every edge. -/
theorem outcome (h : InStep R it it') (hs : R s s') (n : Node) (kind : EdgeKind) :
    R ((it.outcome n s).1.along kind) ((it'.outcome n s').1.along kind) := by
  obtain ⟨o, o', ho, ho', hmatched⟩ := h.transfer n hs
  simpa only [Iteration.outcome, ho, ho'] using hmatched kind

/-- The test for a change has the same answer. -/
theorem changes (h : InStep R it it') (hrun : run.Matched R run') (hs : R s s') (n : Node) :
    (it'.changes run' n s').1 = (it.changes run n s).1 := by
  simp only [Iteration.changes, h.equal hs (h.before hrun n)]

/-- Counting a visit keeps runs matched, whatever failures are recorded. -/
theorem count (h : InStep R it it') (hrun : run.Matched R run') (n : Node)
    (failures failures' : List Failure) :
    (it.count run n failures).Matched R (it'.count run' n failures') where
  before := hrun.before
  visited := hrun.visited
  sent := hrun.sent
  merges := by simp only [Iteration.count, h.isHeader_eq n, hrun.merges]
  queue := hrun.queue
  visits := congrArg (· + 1) hrun.visits

/-! ## §3 Visits and runs -/

/-- Sending matched outcomes keeps runs matched. -/
theorem send (h : InStep R it it') {o : Outcome α} {o' : Outcome β}
    (ho : ∀ kind, R (o.along kind) (o'.along kind)) (hrun : run.Matched R run') (e : Nat) :
    (it.send o run e).Matched R (it'.send o' run' e) := by
  have hsent := forall₂_getD hrun.sent Option.Rel.none e
  simp only [Iteration.send, h.edges]
  cases it.graph.edges[e]? with
  | none => exact hrun
  | some edge =>
    -- the edge gets matched states, and its target waits in both
    have hreplaced : Run.Matched R
        { run with
          sent := run.sent.set e (some (o.along edge.kind))
          queue := enqueue run.queue edge.target }
        { run' with
          sent := run'.sent.set e (some (o'.along edge.kind))
          queue := enqueue run'.queue edge.target } :=
      ⟨hrun.before, hrun.visited, forall₂_set hrun.sent (.some (ho edge.kind)) e, hrun.merges,
        congrArg (enqueue · edge.target) hrun.queue, hrun.visits⟩
    generalize run.sent.getD e none = old, run'.sent.getD e none = old' at hsent ⊢
    cases hsent with
    | none => exact hreplaced
    | some hold =>
      -- the comparison with the old state has the same answer
      simp only [h.equal hold (ho edge.kind)]
      split_ifs
      · exact hrun
      · exact hreplaced

private theorem foldl_send (h : InStep R it it') {o : Outcome α} {o' : Outcome β}
    (ho : ∀ kind, R (o.along kind) (o'.along kind)) (hrun : run.Matched R run') (es : List Nat) :
    (es.foldl (it.send o) run).Matched R (es.foldl (it'.send o') run') := by
  induction es generalizing run run' with
  | nil => exact hrun
  | cons e es ih => exact ih (h.send ho hrun e)

/-- So does giving a node its state and sending along all its edges. -/
theorem spread (h : InStep R it it') (hrun : run.Matched R run') (hs : R s s') (n : Node) :
    (it.spread run n s).Matched R (it'.spread run' n s') := by
  unfold Iteration.spread
  rw [h.outgoing_eq n]
  apply h.foldl_send (h.outcome hs n)
  exact ⟨forall₂_set hrun.before hs n, congrArg (·.set n true) hrun.visited, hrun.sent,
    hrun.merges, hrun.queue, hrun.visits⟩

/-- A visit keeps runs matched. -/
theorem visit (h : InStep R it it') (hrun : run.Matched R run') (n : Node) :
    (it.visit run n).Matched R (it'.visit run' n) := by
  have hmerge := h.merge hrun n
  have hcount := h.count hrun n ((it.merge run n).2 ++ (it.changes run n (it.merge run n).1).2)
    ((it'.merge run' n).2 ++ (it'.changes run' n (it'.merge run' n).1).2)
  unfold Iteration.visit
  dsimp only
  -- whether the visit is quiet is the same question with the same answer
  rw [hrun.visited, h.changes hrun hmerge n]
  split
  · exact hcount
  · exact h.spread hcount hmerge n

/-- The runs are matched at the start. -/
theorem start (h : InStep R it it') : it.start.Matched R it'.start where
  before := by
    rw [Iteration.start, Iteration.start, h.size]
    exact forall₂_replicate h.bottom _
  visited := by rw [Iteration.start, Iteration.start, h.size]
  sent := by
    rw [Iteration.start, Iteration.start, h.edges]
    exact forall₂_replicate .none _
  merges := by rw [Iteration.start, Iteration.start, h.size]
  queue := rfl
  visits := rfl

/-- The two iterations go the same way. -/
theorem iterate (h : InStep R it it') (hrun : run.Matched R run') (limit : Nat) :
    (it.iterate limit run).Matched R (it'.iterate limit run') := by
  induction limit generalizing run run' with
  | zero => exact hrun
  | succ limit ih =>
    unfold Iteration.iterate
    -- the queues are equal, so the same node is visited next
    rw [hrun.queue]
    cases run.queue with
    | nil => exact hrun
    | cons n rest =>
      refine ih (h.visit ?_ n)
      exact ⟨hrun.before, hrun.visited, hrun.sent, hrun.merges, rfl, hrun.visits⟩

end InStep

end Iteration

end RangeGuard
