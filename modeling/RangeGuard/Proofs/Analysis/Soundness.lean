import RangeGuard.Proofs.Analysis.Settled
import RangeGuard.Proofs.Box.Soundness

/-!
# Soundness of the flow invariants

In a sound domain, an iteration that leaves no node waiting has a state around all stores with which
a run arrives, at every node. The domain may fail wherever it likes: a failed join or widening gives
all stores, a failed transfer gives its stand-in, and states that cannot be compared count as
different.

## The argument

The invariant of settled nodes is read as inclusion of stores (`Iteration.Covers`):

1. every state that was sent along an edge is included in the state of its target, unless the target
   still waits;
2. every node that was visited has sent, along each of its edges, a state around what its
   instruction does;
3. the entry has been given all stores, unless it waits.

When nothing waits, the states are closed under execution, and an induction over the execution
(`Iteration.Covers.arrives`) gives the theorem. Nothing is claimed of an iteration that has hit its
visit limit. The example at the end is a loop over boxes that can neither assign nor widen, where
the result is coarse and still right.
-/

namespace RangeGuard

open Iteration

variable {σ : Type} {it : Iteration σ} {γ : σ → it.domain.scope.Valuation → Prop} {run : Run σ}
  {n : Node} {s : σ}

namespace Domain.Sound

/-- Inclusion of stores holds wherever a sound domain puts one state into another. -/
theorem encloses {d : Domain σ} {γ : σ → d.scope.Valuation → Prop} (hd : d.Sound γ) :
    d.Encloses (fun _ => True) fun a b => ∀ v, γ a v → γ b v where
  preserves := ⟨trivial, trivial, fun _ _ _ => trivial, fun _ _ _ => trivial, fun _ _ => trivial,
    fun _ _ => trivial, fun _ _ => trivial⟩
  refl _ _ h := h
  trans _ hab hbc v h := hbc v (hab v h)
  top _ v _ := hd.top v
  le hle _ h := hd.le hle h
  join _ _ ht := ⟨fun _ h => hd.join_left ht h, fun _ h => hd.join_right ht h⟩
  widen _ _ ht := ⟨fun _ h => hd.widen_left ht h, fun _ h => hd.widen_right ht h⟩

/-- What a node sends is around what its instruction does, also if the transfer fails. -/
theorem outcome (hd : it.domain.Sound γ) {kind : EdgeKind} {m m' : Memory}
    (hs : γ s (m.ints.restrict it.domain.scope))
    (he : (it.graph.instruction n).Effect n kind m m') :
    γ ((it.outcome n s).1.along kind) (m'.ints.restrict it.domain.scope) := by
  unfold Iteration.outcome
  dsimp only
  cases htransfer : it.domain.transfer s (it.graph.instruction n) with
  | ok o => exact hd.transfer htransfer hs he
  | error fault => exact hd.fallback hs he

end Domain.Sound

namespace Iteration

/-! ## §1 The invariant -/

/-- All nodes but the pending ones have taken in what was sent to them, and all visited nodes have
sent what they should. -/
structure Covers (it : Iteration σ) (γ : σ → it.domain.scope.Valuation → Prop)
    (pending : Node → Prop) (run : Run σ) : Prop where
  entry : pending it.graph.entry ∨ run.visited.getD it.graph.entry false = true ∧
    ∀ v, γ (run.before.getD it.graph.entry it.domain.bottom) v
  taken : ∀ e edge s, it.graph.edges[e]? = some edge → run.sent.getD e none = some s →
    pending edge.target ∨ run.visited.getD edge.target false = true ∧
      ∀ v, γ s v → γ (run.before.getD edge.target it.domain.bottom) v
  given : ∀ e edge, it.graph.edges[e]? = some edge → run.visited.getD edge.source false = true →
    ∃ s, run.sent.getD e none = some s ∧ ∀ m m',
      γ (run.before.getD edge.source it.domain.bottom) (m.ints.restrict it.domain.scope) →
      (it.graph.instruction edge.source).Effect edge.source edge.kind m m' →
      γ s (m'.ints.restrict it.domain.scope)

/-- The invariant along a whole run: what a visited node has sent is around the outcome of its
state, and the outcome is around what its instruction does. -/
theorem covers_iterate (hd : it.domain.Sound γ) (limit : Nat) :
    it.Covers γ (· ∈ (it.iterate limit it.start).queue) (it.iterate limit it.start) := by
  have hsettled := settled_of_reaches hd.encloses (reaches_iterate .start limit)
  refine ⟨?_, hsettled.taken, ?_⟩
  · exact hsettled.entry.imp_right fun h => ⟨h.1, fun v => h.2 v (hd.top v)⟩
  · intro e edge hedge hvisited
    -- what the edge carries is around the outcome, and the outcome around the effect
    obtain ⟨s, hsent, hcarried⟩ := hsettled.given e edge hedge hvisited
    exact ⟨s, hsent, fun m m' hm heffect => hcarried _ (hd.outcome hm heffect)⟩

/-- States with no node pending are around every execution. -/
theorem Covers.arrives (h : it.Covers γ (fun _ => False) run) {start : Memory → Prop} {m : Memory}
    (harr : it.graph.Arrives start n m) : run.visited.getD n false = true ∧
      γ (run.before.getD n it.domain.bottom) (m.ints.restrict it.domain.scope) := by
  -- induction over the execution: the state before the source accounts for the store, so the state
  -- on the edge and then the one before the target do
  induction harr with
  | entry _ =>
    obtain ⟨hvisited, hall⟩ := h.entry.resolve_left id
    exact ⟨hvisited, hall _⟩
  | @step edge m m' _ hmem heffect ih =>
    obtain ⟨e, hedge⟩ := List.mem_iff_getElem?.mp hmem
    obtain ⟨hvisited, hm⟩ := ih
    obtain ⟨s, hsent, haround⟩ := h.given e edge hedge hvisited
    obtain ⟨hvisited', hincluded⟩ := (h.taken e edge s hedge hsent).resolve_left id
    exact ⟨hvisited', hincluded _ (haround m m' hm heffect)⟩

/-- At the end of an iteration that converged, no node is pending. -/
theorem covers_of_converged {d : Domain σ} {γ : σ → d.scope.Valuation → Prop} (hd : d.Sound γ)
    {settings : Settings} {g : FlowGraph} (hconverged : (d.analyze settings g).converged = true) :
    (Iteration.of d settings g).Covers γ (fun _ => False)
      ((Iteration.of d settings g).iterate settings.visitLimit
        (Iteration.of d settings g).start) := by
  have hempty : ((Iteration.of d settings g).iterate settings.visitLimit
      (Iteration.of d settings g).start).queue = [] := List.isEmpty_iff.mp hconverged
  have hcovers : (Iteration.of d settings g).Covers γ _ _ := covers_iterate hd settings.visitLimit
  simpa only [hempty, List.not_mem_nil] using hcovers

end Iteration

/-- Soundness of the iteration for every domain whose answers are sound, whichever of its operations
fail: if it converges, every store with which a run from any memory arrives at a node is in the
state before that node. -/
theorem Domain.analyze_covers_arrivals {d : Domain σ} {γ : σ → d.scope.Valuation → Prop}
    (hd : d.Sound γ) (settings : Settings) (g : FlowGraph)
    (hconverged : (d.analyze settings g).converged = true) {n : Node} {m : Memory}
    (harr : g.Arrives (fun _ => True) n m) :
    γ ((d.analyze settings g).at d n) (m.ints.restrict d.scope) :=
  ((covers_of_converged hd hconverged).arrives harr).2

/-! ## §2 A counting loop

The loop counts to ten, over boxes that can neither assign nor widen. -/

/-- The local that counts. -/
def counter : Local := ⟨"i", .int⟩

/-- Sets the counter to zero and adds one until it is ten. -/
def countingLoop : FlowGraph where
  nodes := [.assign (.var counter) (.const 0), .branch .ge (.var counter) (.const 10),
    .assign (.var counter) (.binary .add (.var counter) (.const 1)), .ret]
  edges := [⟨0, 1, .fall⟩, ⟨1, 3, .branch⟩, ⟨1, 2, .fall⟩, ⟨2, 1, .fall⟩]
  nonempty := by decide
  closed := by decide

/-- The loop is entered at its test. -/
theorem loopHeaders_countingLoop : countingLoop.loopHeaders = [⟨1, 2⟩] := by
  simp [countingLoop]

/-- The memory in which the counter has a given value. -/
def counting (k : Int) : Memory := ⟨Store.set (fun _ => 0) "i" k, fun _ => none⟩

/-- Writing the counter leads from one of these memories to another. -/
theorem counting_setInt (k n : Int) :
    ((counting k).setInt counter n).setRef "i" none = counting n := by
  simp only [Memory.setInt, counter, counting, Memory.setRef, if_pos, ite_self, Memory.mk.injEq,
    and_true]
  funext y
  simp only [Store.set]
  split <;> rfl

/-- The test is reached with every value up to ten. -/
private theorem arrives_counting (k : Nat) (hk : k ≤ 10) :
    countingLoop.Arrives (fun _ => True) 1 (counting k) := by
  induction k with
  | zero =>
    exact .step (e := ⟨0, 1, .fall⟩) (.entry (s := counting 0) trivial) (by decide)
      ⟨0, none, rfl, rfl, (counting_setInt 0 0).symm⟩
  | succ k ih =>
    -- once round: below ten the test falls through to the body
    have hbody : countingLoop.Arrives (fun _ => True) 2 (counting k) :=
      .step (e := ⟨1, 2, .fall⟩) (ih (by omega)) (by decide)
        ⟨rfl, k, 10, fun _ => rfl, rfl, by simp [Comparator.Holds]; omega⟩
    rw [Nat.cast_succ]
    exact .step (e := ⟨2, 1, .fall⟩) hbody (by decide)
      ⟨k + 1, none, ⟨k, 1, fun _ => rfl, rfl, rfl⟩, rfl, (counting_setInt k (k + 1)).symm⟩

/-- Boxes for the counter that can neither assign nor widen. -/
def faultyBoxes : Domain Box :=
  (Box.domain ⟨["i"], by decide⟩).withFaults ⟨[(.assign, "i"), (.widen, "i")], none⟩

/-- The state behind the loop is coarse, from ten on, and has the memory in which the loop is left.
-/
theorem analyze_covers_arrivals_countingLoop :
    (faultyBoxes.analyze { wideningThreshold := 1 } countingLoop).converged = true ∧
    (faultyBoxes.analyze { wideningThreshold := 1 } countingLoop).at faultyBoxes 3 =
      .reachable [⟨.finite 10, .posInf⟩] ∧
    Box.Describes faultyBoxes.scope
      ((faultyBoxes.analyze { wideningThreshold := 1 } countingLoop).at faultyBoxes 3)
      ((counting 10).ints.restrict faultyBoxes.scope) := by
  have hconverged : (faultyBoxes.analyze { wideningThreshold := 1 } countingLoop).converged =
      true := by
    rw [Domain.analyze, Iteration.of, loopHeaders_countingLoop]
    decide +kernel
  have hexit : (faultyBoxes.analyze { wideningThreshold := 1 } countingLoop).at faultyBoxes 3 =
      .reachable [⟨.finite 10, .posInf⟩] := by
    rw [Domain.analyze, Iteration.of, loopHeaders_countingLoop]
    decide +kernel
  have harr : countingLoop.Arrives (fun _ => True) 3 (counting 10) :=
    .step (e := ⟨1, 3, .branch⟩) (arrives_counting 10 le_rfl) (by decide)
      ⟨rfl, 10, 10, fun _ => rfl, rfl, by simp [Comparator.Holds]⟩
  exact ⟨hconverged, hexit, Domain.analyze_covers_arrivals
    ((Box.sound_domain _).withFaults _) { wideningThreshold := 1 } countingLoop hconverged harr⟩

end RangeGuard
