import RangeGuard.Proofs.Analysis.Query
import RangeGuard.Proofs.Analysis.Visit

/-!
# What holds of every state of an iteration

A property of states that holds of bottom and top and that every operation of the domain preserves
where it answers holds of every state that an iteration stores or sends, whatever fails on the way.

The recovery from a failure needs no law of its own. Where a join or a widening fails, top takes its
place; where a transfer fails, the variable is forgotten or the state is kept. All of these are
states that the operations could have given.

The file follows the data of a visit: the outcome of an instruction, what arrives at a node, the
merged state, the visit as a whole, and then the run. Properness and well-formedness of boxes are
the two properties that it is applied to.
-/

namespace RangeGuard

variable {σ : Type}

/-- The operations of the domain `d`, where they answer, preserve the property `P` of states. -/
structure Domain.Preserves (d : Domain σ) (P : σ → Prop) : Prop where
  top : P d.top
  bottom : P d.bottom
  join : ∀ {a b t}, P a → P b → d.join a b = .ok t → P t
  widen : ∀ {a b t}, P a → P b → d.widen a b = .ok t → P t
  assign : ∀ {s x e t}, P s → d.assign s x e = .ok t → P t
  forget : ∀ {s x t}, P s → d.forget s x = .ok t → P t
  constrain : ∀ {s c t}, P s → d.constrain s c = .ok t → P t

namespace Domain.Preserves

variable {d : Domain σ} {P : σ → Prop} {s t : σ}

/-! ## §1 Transfer -/

/-- The answer to a question has the property on both edges. -/
theorem ask (hd : d.Preserves P) {q : Query} {o : Outcome σ} (hs : P s) (h : q.ask d s = .ok o)
    (kind : EdgeKind) : P (o.along kind) := by
  cases q with
  | keep => exact Except.ok.inj h ▸ hs
  | fork =>
    obtain rfl := Except.ok.inj h
    cases kind <;> exact hs
  | stop => exact Except.ok.inj h ▸ hd.bottom
  | assign x e =>
    obtain ⟨t, ht, rfl⟩ := map_eq_ok_iff.mp h
    exact hd.assign hs ht
  | forget x =>
    obtain ⟨t, ht, rfl⟩ := map_eq_ok_iff.mp h
    exact hd.forget hs ht
  | compare comparator left right =>
    obtain ⟨taken, htaken, h⟩ := bind_eq_ok_iff.mp h
    obtain ⟨notTaken, hnotTaken, h⟩ := bind_eq_ok_iff.mp h
    obtain rfl := Except.ok.inj h
    cases kind with
    | branch => exact hd.constrain hs htaken
    | fall => exact hd.constrain hs hnotTaken

/-- So has the outcome of an instruction. -/
theorem transfer (hd : d.Preserves P) {i : Instruction} {o : Outcome σ} (hs : P s)
    (h : d.transfer s i = .ok o) (kind : EdgeKind) : P (o.along kind) := by
  obtain ⟨q, -, hask⟩ := Query.exists_transfer_eq d.scope i
  rw [hask d s rfl] at h
  -- bottom is passed on without a question
  split at h
  · exact Except.ok.inj h ▸ hs
  · exact hd.ask hs h kind

/-- So has the stand-in for a failed transfer. -/
theorem fallback (hd : d.Preserves P) {i : Instruction} (hs : P s) (kind : EdgeKind) :
    P ((d.fallback s i).along kind) := by
  unfold Domain.fallback
  split
  · rename_i v value
    split
    · -- forgetting may fail too, and then top is sent
      cases hforget : d.forget s v.name with
      | ok t => exact hd.forget hs hforget
      | error fault => exact hd.top
    · exact hs
  · cases kind with
    | branch => exact hs
    | fall => exact hs
  · exact hs

end Domain.Preserves

/-! ## §2 Runs -/

/-- The property `P` holds of the states before all nodes and on all edges. -/
structure Run.States (P : σ → Prop) (run : Run σ) : Prop where
  before : ∀ s ∈ run.before, P s
  sent : ∀ e s, run.sent.getD e none = some s → P s

/-- The queue does not matter. -/
theorem Run.States.withQueue {P : σ → Prop} {run : Run σ} (h : run.States P) (queue : List Node) :
    Run.States P { run with queue := queue } := ⟨h.before, h.sent⟩

namespace Domain.Preserves

open Iteration

variable {it : Iteration σ} {P : σ → Prop} {run : Run σ} {n : Node} {s : σ}

/-- Whether or not the transfer fails, what is sent has the property. -/
theorem outcome (hd : it.domain.Preserves P) (hs : P s) (kind : EdgeKind) :
    P ((it.outcome n s).1.along kind) := by
  unfold Iteration.outcome
  dsimp only
  cases htransfer : it.domain.transfer s (it.graph.instruction n) with
  | ok o => exact hd.transfer hs htransfer kind
  | error fault => exact hd.fallback hs kind

/-- A fold of joins keeps the property. -/
theorem foldlM_join (hd : it.domain.Preserves P) {states : List σ} {a t : σ} (ha : P a)
    (hstates : ∀ b ∈ states, P b) (h : states.foldlM it.domain.join a = .ok t) : P t := by
  induction states generalizing a with
  | nil => exact Except.ok.inj h ▸ ha
  | cons b states ih =>
    rw [List.foldlM_cons] at h
    obtain ⟨c, hjoin, hrest⟩ := bind_eq_ok_iff.mp h
    rw [List.forall_mem_cons] at hstates
    exact ih (hd.join ha hstates.1 hjoin) hstates.2 hrest

/-- What arrives at a node has the property: it is a join of states that were sent, or top. -/
theorem gathered (hd : it.domain.Preserves P) (h : run.States P) : P (it.gathered run n).1 := by
  unfold Iteration.gathered
  cases hinflow : it.inflow run n with
  | error fault => exact hd.top
  | ok t =>
    refine hd.foldlM_join ?_ (fun b hb => ?_) hinflow
    · split
      · exact hd.top
      · exact hd.bottom
    · obtain ⟨e, -, hsent⟩ := List.mem_filterMap.mp hb
      exact h.sent e b hsent

theorem before (hd : it.domain.Preserves P) (h : run.States P) (n : Node) :
    P (run.before.getD n it.domain.bottom) := by
  rw [List.getD_eq_getElem?_getD]
  cases hget : run.before[n]? with
  | none => exact hd.bottom
  | some s => exact h.before s (List.mem_of_getElem? hget)

/-- The merged state of a node has the property. -/
theorem merge (hd : it.domain.Preserves P) (h : run.States P) : P (it.merge run n).1 := by
  have hgathered := hd.gathered (n := n) h
  have hbefore := hd.before h n
  -- a loop header merges with its previous state; a failed merge gives top
  obtain ⟨-, hmerged⟩ | ⟨-, answer, hanswer, hmerged⟩ := merge_cases it run n
  · exact hmerged ▸ hgathered
  obtain rfl | ⟨fault, -, hmerged⟩ := hmerged
  · split at hanswer
    · exact hd.widen hbefore hgathered hanswer.symm
    · exact hd.join hbefore hgathered hanswer.symm
  · exact hmerged ▸ hd.top

/-- A visit keeps the property, for the states before nodes and for those on edges. -/
theorem states_visit (hd : it.domain.Preserves P) (hlen : run.sent.length = it.graph.edges.length)
    (h : run.States P) (n : Node) : (it.visit run n).States P := by
  rcases visit_cases hlen n with hquiet | hspreads
  · exact ⟨hquiet.before_eq ▸ h.before, hquiet.sent_eq ▸ h.sent⟩
  · refine ⟨fun s hs => ?_, fun e s hs => ?_⟩
    · rw [hspreads.before_eq] at hs
      rcases List.mem_or_eq_of_mem_set hs with hs | rfl
      · exact h.before s hs
      · exact hd.merge h
    -- an edge has its old state or the outcome of the merged one
    · rcases hspreads.sends.sent e with hkept | ⟨edge, -, -, hsent, -⟩
      · exact h.sent e s (hkept ▸ hs)
      · obtain rfl := Option.some.inj (hsent.symm.trans hs)
        exact hd.outcome (hd.merge h) edge.kind

/-- The property holds of every state of a run. -/
theorem states_reaches (hd : it.domain.Preserves P) (h : it.Reaches run) : run.States P := by
  refine reaches_induction (motive := Run.States P) ?_ ?_ h
  · refine ⟨fun s hs => ?_, fun e s hs => ?_⟩
    · rw [List.eq_of_mem_replicate hs]
      exact hd.bottom
    · rw [sent_start] at hs
      cases hs
  · intro run n rest _ hshape _ _ hstates
    exact hd.states_visit hshape.sent (hstates.withQueue rest) n

end Domain.Preserves

end RangeGuard
