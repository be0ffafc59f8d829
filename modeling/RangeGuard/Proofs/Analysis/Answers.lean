import RangeGuard.Check.Verdict
import RangeGuard.Proofs.Analysis.Termination
import RangeGuard.Proofs.Box.Order

/-!
# Analyses without failures

A domain answers if its operations fail on no state of a given kind, as long as the variables that
they are asked about are in the scope. In such a domain an iteration never has to recover: its
states are of that kind from the start on, and the questions of every instruction stay within the
scope.

Boxes answer on proper boxes, so their analyses record no failure, and it makes no difference to a
verdict whether failures would count against it.

This module complements the file on states of an iteration. There the operations may fail and the
property is kept by what takes their place; here the same property is the reason why they do not
fail. `Domain.Answers` extends the laws of `Domain.Preserves` by the existence of answers, one law
for each operation that can fail.
-/

namespace RangeGuard

variable {σ : Type}

/-- The operations of the domain `d` preserve the property `P` of states, and on states that have it
they answer every question within the scope. -/
structure Domain.Answers (d : Domain σ) (P : σ → Prop) : Prop where
  preserves : d.Preserves P
  le : ∀ {a b}, P a → P b → ∃ included, d.le a b = .ok included
  join : ∀ {a b}, P a → P b → ∃ t, d.join a b = .ok t
  widen : ∀ {a b}, P a → P b → ∃ t, d.widen a b = .ok t
  assign : ∀ {s x e}, P s → x ∈ d.scope.names → e.Within d.scope → ∃ t, d.assign s x e = .ok t
  forget : ∀ {s x}, P s → x ∈ d.scope.names → ∃ t, d.forget s x = .ok t
  constrain : ∀ {s c}, P s → c.expr.Within d.scope → ∃ t, d.constrain s c = .ok t

namespace Domain.Answers

/-! ## §1 Transfer -/

section Transfer

variable {d : Domain σ} {P : σ → Prop} {s a b : σ}

/-- A question within the scope is answered. -/
theorem ask (hd : d.Answers P) {q : Query} (hq : q.Within d.scope) (hs : P s) :
    ∃ o, q.ask d s = .ok o := by
  cases q with
  | keep | fork | stop => exact ⟨_, rfl⟩
  | assign x e =>
    obtain ⟨t, ht⟩ := hd.assign hs hq.1 hq.2
    exact ⟨.uniform t, map_eq_ok_iff.mpr ⟨t, ht, rfl⟩⟩
  | forget x =>
    obtain ⟨t, ht⟩ := hd.forget hs hq
    exact ⟨.uniform t, map_eq_ok_iff.mpr ⟨t, ht, rfl⟩⟩
  | compare comparator left right =>
    obtain ⟨⟨-, hleft⟩, -, hright⟩ := hq
    obtain ⟨taken, htaken⟩ := hd.constrain hs (Arith.within_constraint comparator hleft hright)
    obtain ⟨notTaken, hnotTaken⟩ :=
      hd.constrain hs (Arith.within_constraint comparator.negate hleft hright)
    exact ⟨.split taken notTaken,
      bind_eq_ok_iff.mpr ⟨taken, htaken, bind_eq_ok_iff.mpr ⟨notTaken, hnotTaken, rfl⟩⟩⟩

/-- Every instruction can be applied to a state of the right kind. -/
theorem exists_transfer (hd : d.Answers P) (hs : P s) (i : Instruction) :
    ∃ o, d.transfer s i = .ok o := by
  obtain ⟨q, hq, hask⟩ := Query.exists_transfer_eq d.scope i
  rw [hask d s rfl]
  split
  · exact ⟨_, rfl⟩
  · exact hd.ask hq hs

/-- States of the right kind can be compared for equality. -/
theorem equal (hd : d.Answers P) (ha : P a) (hb : P b) : ∃ same, d.equal a b = .ok same := by
  obtain ⟨included, hle⟩ := hd.le ha hb
  obtain ⟨back, hback⟩ := hd.le hb ha
  unfold Domain.equal
  rw [hle]
  -- the second inclusion is asked for only after the first has been confirmed
  cases included with
  | false => exact ⟨false, rfl⟩
  | true => exact ⟨back, hback⟩

end Transfer

/-! ## §2 Runs -/

open Iteration

variable {it : Iteration σ} {P : σ → Prop} {run : Run σ} {n : Node} {s : σ}

/-- The outcome of a node is that of its instruction. -/
theorem outcome (hd : it.domain.Answers P) (hs : P s) (n : Node) :
    it.domain.transfer s (it.graph.instruction n) = .ok (it.outcome n s).1 ∧
      (it.outcome n s).2 = [] := by
  obtain ⟨o, ho⟩ := hd.exists_transfer hs (it.graph.instruction n)
  simp only [Iteration.outcome, ho]
  exact ⟨trivial, trivial⟩

/-- States of the right kind can be joined in sequence. -/
theorem foldlM_join (hd : it.domain.Answers P) {states : List σ} {a : σ} (ha : P a)
    (hstates : ∀ b ∈ states, P b) : ∃ t, states.foldlM it.domain.join a = .ok t := by
  induction states generalizing a with
  | nil => exact ⟨a, rfl⟩
  | cons b states ih =>
    rw [List.forall_mem_cons] at hstates
    obtain ⟨c, hjoin⟩ := hd.join ha hstates.1
    obtain ⟨t, ht⟩ := ih (hd.preserves.join ha hstates.1 hjoin) hstates.2
    rw [List.foldlM_cons]
    exact ⟨t, bind_eq_ok_iff.mpr ⟨c, hjoin, ht⟩⟩

/-- The incoming states of a node can be joined. -/
theorem inflow (hd : it.domain.Answers P) (h : run.States P) (n : Node) :
    it.inflow run n = .ok (it.gathered run n).1 ∧ (it.gathered run n).2 = [] := by
  have hanswer : ∃ t, it.inflow run n = .ok t := by
    apply hd.foldlM_join
    · split
      · exact hd.preserves.top
      · exact hd.preserves.bottom
    · -- what was sent along an edge is a state of the run
      intro b hb
      obtain ⟨e, -, hsent⟩ := List.mem_filterMap.mp hb
      exact h.sent e b hsent
  obtain ⟨t, ht⟩ := hanswer
  simp only [Iteration.gathered, ht]
  exact ⟨trivial, trivial⟩

/-- The previous state of a loop header can be joined and widened with what arrives. -/
theorem exists_header (hd : it.domain.Answers P) (h : run.States P) (n : Node) :
    ∃ t, (if it.widensAt run n then it.domain.widen else it.domain.join)
      (run.before.getD n it.domain.bottom) (it.gathered run n).1 = .ok t := by
  have hbefore := hd.preserves.before h n
  have hgathered := hd.preserves.gathered (n := n) h
  split
  · exact hd.widen hbefore hgathered
  · exact hd.join hbefore hgathered

/-- The merged state of a loop header is the join or widening, as the threshold decides. -/
theorem merge_header (hd : it.domain.Answers P) (h : run.States P)
    (hheader : it.isHeader n = true) :
    (if it.widensAt run n then it.domain.widen else it.domain.join)
      (run.before.getD n it.domain.bottom) (it.gathered run n).1 = .ok (it.merge run n).1 := by
  obtain ⟨t, ht⟩ := hd.exists_header h n
  -- the answer exists, so the case of a failed merge is excluded
  obtain ⟨hnot, -⟩ | ⟨-, answer, hanswer, hmerged | ⟨fault, hfault, -⟩⟩ := merge_cases it run n
  · rw [hheader] at hnot
    cases hnot
  · exact hanswer ▸ hmerged
  · rw [hanswer, ht] at hfault
    cases hfault

/-- Merging records no failure. -/
private theorem merge_failures (hd : it.domain.Answers P) (h : run.States P) (n : Node) :
    (it.merge run n).2 = [] := by
  have hgathered := (hd.inflow h n).2
  unfold Iteration.merge
  dsimp only
  split
  · have hheader : (it.headerState run n (it.gathered run n).1).2 = [] := by
      obtain ⟨t, ht⟩ := hd.exists_header h n
      unfold headerState
      dsimp only
      split at ht <;> simp_all
    rw [hgathered, hheader]
    rfl
  · exact hgathered

/-- Neither does the comparison with the previous state. -/
private theorem changes_failures (hd : it.domain.Answers P) (h : run.States P) (hs : P s)
    (n : Node) :
    (it.changes run n s).2 = [] := by
  obtain ⟨same, hsame⟩ := hd.equal hs (hd.preserves.before h n)
  simp only [changes, hsame]

/-- A visit records no failure. -/
theorem failures_visit (hd : it.domain.Answers P) (h : run.States P) (n : Node) :
    (it.visit run n).failures = run.failures := by
  have hmerged := hd.preserves.merge (n := n) h
  have hcount :
      (it.count run n ((it.merge run n).2 ++ (it.changes run n (it.merge run n).1).2)).failures
      = run.failures := by
    rw [hd.merge_failures h, hd.changes_failures h hmerged]
    exact Array.append_empty
  unfold visit
  dsimp only
  split
  · exact hcount
  · -- spreading may add the failure of the instruction, and there is none
    unfold spread
    rw [foldl_send_frame Run.failures fun _ _ _ => rfl]
    dsimp only
    rw [hcount, (hd.outcome hmerged n).2]
    exact Array.append_empty

/-- No run records a failure. -/
theorem failures_reaches (hd : it.domain.Answers P) (h : it.Reaches run) : run.failures = #[] := by
  -- the states of the run are of the right kind at every visit, so no visit adds a failure
  refine reaches_induction (motive := fun run => run.failures = #[]) rfl ?_ h
  intro run n rest hreaches _ _ _ hfailures
  have hstates := hd.preserves.states_reaches hreaches
  exact (hd.failures_visit (hstates.withQueue rest) n).trans hfailures

end Domain.Answers

/-! ## §3 Boxes -/

namespace Box

variable {scope : Scope} {b : Box} {x : String}

private theorem position_eq_ok (hx : x ∈ scope.names) : ∃ k, position scope x = .ok k := by
  obtain ⟨k, hk⟩ := Scope.exists_position hx
  exact ⟨k, position_eq_ok_iff.mpr hk⟩

/-- Expressions within the scope pass the check. -/
theorem checkVariables_eq_ok {e : Arith} (he : e.Within scope) :
    checkVariables scope e = .ok () := by
  have hnone : (e.vars.find? fun x => !scope.contains x) = none := by
    rw [List.find?_eq_none]
    intro x hx
    simpa [Scope.contains] using he x hx
  rw [checkVariables, hnone]

/-- The check passes for expressions within the scope only. -/
theorem checkVariables_eq_ok_iff {e : Arith} :
    checkVariables scope e = .ok () ↔ e.Within scope := by
  refine ⟨fun h x hx => ?_, checkVariables_eq_ok⟩
  unfold checkVariables at h
  split at h
  · cases h
  · rename_i hnone
    simpa [Scope.contains] using List.find?_eq_none.mp hnone x hx

/-- Assignment of an expression within the scope answers. -/
theorem exists_assign {e : Arith} (hb : Proper scope b) (hx : x ∈ scope.names)
    (he : e.Within scope) : ∃ t, assign scope b x e = .ok t := by
  obtain ⟨k, hk⟩ := position_eq_ok hx
  obtain ⟨o, ho⟩ := hb.exists_components
  rw [assign, hk, checkVariables_eq_ok he, ho]
  cases o <;> exact ⟨_, rfl⟩

theorem exists_forget (hb : Proper scope b) (hx : x ∈ scope.names) :
    ∃ t, forget scope b x = .ok t := by
  obtain ⟨k, hk⟩ := position_eq_ok hx
  obtain ⟨o, ho⟩ := hb.exists_components
  rw [forget, hk, ho]
  cases o <;> exact ⟨_, rfl⟩

/-- Refinement by a constraint within the scope answers, possibly with bottom. -/
theorem exists_constrain {c : Constraint} (hb : Proper scope b) (hc : c.expr.Within scope) :
    ∃ t, constrain scope b c = .ok t := by
  obtain ⟨o, ho⟩ := hb.exists_components
  rw [constrain, checkVariables_eq_ok hc, ho]
  cases o with
  | none => exact ⟨_, rfl⟩
  | some cs =>
    cases hrefined : refine? scope cs c with
    | none => exact ⟨bottom, by simp only [bind, Except.bind, hrefined]; rfl⟩
    | some refined => exact ⟨ofComponents refined, by simp only [bind, Except.bind, hrefined]; rfl⟩

/-- Boxes answer: the only faults are variables outside the scope and wrong numbers of components.
-/
theorem answers_domain (scope : Scope) : (domain scope).Answers (Proper scope) where
  preserves := (stabilises_domain scope).preserves
  le ha hb := exists_le ha hb
  join ha hb := (exists_pointwise Interval.join ha hb).imp fun _ h => h.1
  widen ha hb := (exists_pointwise Interval.widen ha hb).imp fun _ h => h.1
  assign hs hx he := exists_assign hs hx he
  forget hs hx := exists_forget hs hx
  constrain hs hc := exists_constrain hs hc

/-- Analyses with boxes record no failure. -/
theorem failures_analyze (scope : Scope) (settings : Settings) (g : FlowGraph) :
    ((domain scope).analyze settings g).failures = [] := by
  have hrun : (Iteration.of (domain scope) settings g).Reaches
      ((Iteration.of (domain scope) settings g).iterate settings.visitLimit
        (Iteration.of (domain scope) settings g).start) := Iteration.reaches_iterate .start _
  exact congrArg Array.toList ((answers_domain scope).failures_reaches hrun)

/-- A verdict with boxes does not depend on whether failures count against it. -/
theorem verdictOn_strict (c : Class) (settings : Settings) (p : Procedure) (strict : Bool) :
    c.verdictOn { settings with strict := strict } p = c.verdictOn settings p := by
  -- without failures an analysis is trusted if it has converged
  have htrusted : ∀ settings, (c.analyze settings p).isTrusted settings =
      (c.analyze settings p).converged := by
    intro settings
    have hfailures : (c.analyze settings p).failures = [] := failures_analyze _ settings p.graph
    simp [Analysis.isTrusted, hfailures]
  unfold Class.verdictOn Domain.verdict
  rw [htrusted settings, htrusted { settings with strict := strict }]
  rfl

/-- Analyses with boxes record no failure, over any scope and graph and under any settings. Every
state of a run that is not bottom has one component for each variable of the scope; the transfer of
every instruction puts a question within the scope, the same one in all domains over it; and so it
makes no difference to the verdict on a class whether failures count against it. -/
theorem analyze_records_no_failure (scope : Scope) (settings : Settings) (g : FlowGraph) :
    ((domain scope).analyze settings g).failures = [] ∧
    (∀ k, ((Iteration.of (domain scope) settings g).iterate k
      (Iteration.of (domain scope) settings g).start).States
        fun b => ∀ cs, b = reachable cs → cs.length = scope.size) ∧
    (∀ i : Instruction, ∃ q : Query, q.Within scope ∧
      ∀ {σ : Type} (d : Domain σ) (s : σ), d.scope = scope →
        d.transfer s i = if d.isBottom s then .ok (.uniform s) else q.ask d s) ∧
    ∀ c : Class, c.verify { settings with strict := true } =
      c.verify { settings with strict := false } := by
  refine ⟨failures_analyze scope settings g, ?_, Query.exists_transfer_eq scope, ?_⟩
  · intro k
    have hd : (Iteration.of (domain scope) settings g).domain.Preserves (Proper scope) :=
      (answers_domain scope).preserves
    have hstates := hd.states_reaches (Iteration.reaches_iterate .start k)
    have hlength : ∀ b, Proper scope b → ∀ cs, b = reachable cs → cs.length = scope.size := by
      rintro _ hproper cs rfl
      exact hproper.1
    exact ⟨fun b hb => hlength b (hstates.before b hb),
      fun e b hb => hlength b (hstates.sent e b hb)⟩
  · intro c
    unfold Class.verify
    congr 1
    apply List.map_congr_left
    intro p _
    exact (verdictOn_strict c settings p true).trans (verdictOn_strict c settings p false).symm

end Box

end RangeGuard
