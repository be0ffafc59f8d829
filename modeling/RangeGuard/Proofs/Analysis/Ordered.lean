import RangeGuard.Proofs.Analysis.Answers
import RangeGuard.Proofs.Analysis.Settled
import RangeGuard.Proofs.Box.Monotone

/-!
# Domains whose order behaves like a lattice

Beyond answering, some domains have an order that is a partial order with the join as its least
upper bound, and that transfer respects: a larger state before an instruction gives a larger
outcome. From such an order alone, an iteration's states only grow, in whatever order its nodes are
visited, and the smallest solution of the flow equations is the one that the iteration finds.

`Domain.Ordered` collects these laws. It is a property of the domain together with a kind of states:
boxes satisfy it on proper boxes. The law that takes work is monotonicity of transfer. An
instruction puts one question to the domain, and each kind of question is monotone; for comparisons
that needs ranges that are not empty, which differences of constants and variables always have.

Soundness needs none of this and is proved elsewhere, for domains that may fail.
-/

namespace RangeGuard

variable {σ : Type}

/-- The operations of the domain `d` answer on states with the property `P`, and on those the order
is a partial order, top and bottom are its greatest and least elements, the join is the least upper
bound, and transfer is monotone. -/
structure Domain.Ordered (d : Domain σ) (P : σ → Prop) : Prop extends d.Answers P where
  refl : ∀ {a}, P a → d.le a a = .ok true
  trans : ∀ {a b c}, P c → d.le a b = .ok true → d.le b c = .ok true → d.le a c = .ok true
  antisymm : ∀ {a b}, P a → P b → d.le a b = .ok true → d.le b a = .ok true → a = b
  isBottom_bottom : d.isBottom d.bottom = true
  bottom_le : ∀ {a}, P a → d.le d.bottom a = .ok true
  le_top : ∀ {a}, P a → d.le a d.top = .ok true
  join_le : ∀ {a b c t}, P c → d.join a b = .ok t → d.le a c = .ok true → d.le b c = .ok true →
    d.le t c = .ok true
  join_left : ∀ {a b t}, P a → P b → d.join a b = .ok t → d.le a t = .ok true
  join_right : ∀ {a b t}, P a → P b → d.join a b = .ok t → d.le b t = .ok true
  widen_left : ∀ {a b t}, P a → P b → d.widen a b = .ok t → d.le a t = .ok true
  widen_right : ∀ {a b t}, P a → P b → d.widen a b = .ok t → d.le b t = .ok true
  transfer_mono : ∀ {a b i o o'} {kind : EdgeKind}, P a → P b → d.le a b = .ok true →
    d.transfer a i = .ok o → d.transfer b i = .ok o' → d.le (o.along kind) (o'.along kind) =
      .ok true

namespace Domain.Ordered

variable {d : Domain σ} {P : σ → Prop}

/-- The order gives the laws of a relation that joins, widenings and confirmed inclusions give. -/
theorem encloses (hd : d.Ordered P) : d.Encloses P fun a b => d.le a b = .ok true where
  preserves := hd.preserves
  refl := hd.refl
  trans := hd.trans
  top := hd.le_top
  le h := h
  join ha hb ht := ⟨hd.join_left ha hb ht, hd.join_right ha hb ht⟩
  widen ha hb ht := ⟨hd.widen_left ha hb ht, hd.widen_right ha hb ht⟩

/-! ## §1 Merging and sending -/

open Iteration

variable {it : Iteration σ} {run : Run σ} {n : Node} {a b c : σ}

/-- A fold of joins lies below every upper bound. -/
private theorem foldlM_join_le (hd : d.Ordered P) {states : List σ} {t : σ} (hc : P c)
    (ha : d.le a c = .ok true) (hstates : ∀ b ∈ states, d.le b c = .ok true)
    (h : states.foldlM d.join a = .ok t) : d.le t c = .ok true := by
  induction states generalizing a with
  | nil => exact Except.ok.inj h ▸ ha
  | cons b states ih =>
    rw [List.foldlM_cons] at h
    obtain ⟨joined, hjoin, hrest⟩ := bind_eq_ok_iff.mp h
    rw [List.forall_mem_cons] at hstates
    exact ih (hd.join_le hc hjoin ha hstates.1) hstates.2 hrest

/-- What arrives at a node is the least state above the start and all that was sent to the node. -/
theorem gathered_le (hd : it.domain.Ordered P) (h : run.States P) (hc : P c)
    (hstart : it.domain.le (if n = it.graph.entry then it.domain.top else it.domain.bottom) c =
      .ok true)
    (hsent : ∀ e edge s, it.graph.edges[e]? = some edge → edge.target = n →
      run.sent.getD e none = some s → it.domain.le s c = .ok true) :
    it.domain.le (it.gathered run n).1 c = .ok true := by
  refine hd.foldlM_join_le hc hstart ?_ (hd.inflow h n).1
  -- what is joined was sent along an edge into the node
  intro s hs
  obtain ⟨e, he, hs⟩ := List.mem_filterMap.mp hs
  obtain ⟨edge, hedge, htarget⟩ := FlowGraph.mem_incoming.mp he
  exact hsent e edge s hedge htarget hs

/-- A larger state before a node gives larger states on its edges. -/
theorem outcome_le_outcome (hd : it.domain.Ordered P) (ha : P a) (hb : P b)
    (hle : it.domain.le a b = .ok true) (n : Node) (kind : EdgeKind) :
    it.domain.le ((it.outcome n a).1.along kind) ((it.outcome n b).1.along kind) = .ok true :=
  hd.transfer_mono ha hb hle (hd.outcome ha n).1 (hd.outcome hb n).1

/-- Where control does not arrive, it does not go on. -/
theorem outcome_bottom (hd : it.domain.Ordered P) (n : Node) (kind : EdgeKind) :
    (it.outcome n it.domain.bottom).1.along kind = it.domain.bottom := by
  obtain ⟨htransfer, -⟩ := hd.outcome hd.preserves.bottom n
  obtain ⟨q, -, hask⟩ := Query.exists_transfer_eq it.domain.scope (it.graph.instruction n)
  rw [hask it.domain _ rfl, if_pos hd.isBottom_bottom] at htransfer
  rw [← Except.ok.inj htransfer]
  rfl

end Domain.Ordered

/-! ## §2 Boxes -/

namespace Box

variable {scope : Scope} {a b : Box} {o o' : Outcome Box}

/-- A comparison of constants and variables subtracts two ranges that are not empty. -/
theorem isEmpty_range_constraint {left right : Arith} (hleft : left.IsAtom) (hright : right.IsAtom)
    (comparator : Comparator) {cs : List Interval} (h : ∀ x, (lookup scope cs x).isEmpty = false) :
    ((comparator.constraint left right).expr.range (lookup scope cs)).isEmpty = false := by
  have hatom : ∀ {e : Arith}, e.IsAtom → (e.range (lookup scope cs)).isEmpty = false := by
    intro e he
    cases e with
    | var x => exact h x
    | const n => exact Interval.isEmpty_eq_false_iff.mpr (Bound.le_refl _)
    | add | sub | mul | div | rem | neg => exact he.elim
  cases comparator with
  | eq | ne | gt | ge => exact Interval.isEmpty_sub (hatom hleft) (hatom hright)
  | lt | le => exact Interval.isEmpty_sub (hatom hright) (hatom hleft)

/-- A question has a larger outcome in a larger box. -/
theorem ask_le_ask {q : Query} (hq : q.Within scope) (ha : Proper scope a) (hb : Proper scope b)
    (hle : le scope a b = .ok true) (hs : q.ask (domain scope) a = .ok o)
    (ht : q.ask (domain scope) b = .ok o') (kind : EdgeKind) :
    le scope (o.along kind) (o'.along kind) = .ok true := by
  cases q with
  | keep =>
    obtain rfl := Except.ok.inj hs
    obtain rfl := Except.ok.inj ht
    exact hle
  | fork =>
    obtain rfl := Except.ok.inj hs
    obtain rfl := Except.ok.inj ht
    cases kind <;> exact hle
  | stop =>
    obtain rfl := Except.ok.inj hs
    obtain rfl := Except.ok.inj ht
    exact bottom_le trivial
  | assign x e =>
    obtain ⟨s, hsmall, rfl⟩ := map_eq_ok_iff.mp hs
    obtain ⟨t, hlarge, rfl⟩ := map_eq_ok_iff.mp ht
    exact assign_le_assign hle hsmall hlarge
  | forget x =>
    obtain ⟨s, hsmall, rfl⟩ := map_eq_ok_iff.mp hs
    obtain ⟨t, hlarge, rfl⟩ := map_eq_ok_iff.mp ht
    exact forget_le_forget ha hb hle hsmall hlarge
  | compare comparator left right =>
    -- both edges of a comparison are refinements, by it and by its opposite
    obtain ⟨⟨hleft, -⟩, hright, -⟩ := hq
    obtain ⟨taken, htaken, hrest⟩ := bind_eq_ok_iff.mp hs
    obtain ⟨notTaken, hnotTaken, hrest⟩ := bind_eq_ok_iff.mp hrest
    obtain rfl := Except.ok.inj hrest
    obtain ⟨taken', htaken', hrest'⟩ := bind_eq_ok_iff.mp ht
    obtain ⟨notTaken', hnotTaken', hrest'⟩ := bind_eq_ok_iff.mp hrest'
    obtain rfl := Except.ok.inj hrest'
    cases kind with
    | branch =>
      exact constrain_le_constrain ha hle
        (fun _ _ _ h => isEmpty_range_constraint hleft hright comparator h) htaken htaken'
    | fall =>
      exact constrain_le_constrain ha hle
        (fun _ _ _ h => isEmpty_range_constraint hleft hright comparator.negate h) hnotTaken
        hnotTaken'

/-- The domain recognises bottom and nothing else. -/
private theorem isBottom_iff : (domain scope).isBottom a = true ↔ a = bottom := decide_eq_true_iff

/-- The transfer of every instruction is monotone. -/
theorem transfer_le_transfer {i : Instruction} (ha : Proper scope a) (hb : Proper scope b)
    (hle : le scope a b = .ok true) (hs : (domain scope).transfer a i = .ok o)
    (ht : (domain scope).transfer b i = .ok o') (kind : EdgeKind) :
    le scope (o.along kind) (o'.along kind) = .ok true := by
  have hproper := (stabilises_domain scope).preserves.transfer hb ht kind
  obtain ⟨q, hq, hask⟩ := Query.exists_transfer_eq scope i
  rw [hask (domain scope) a rfl] at hs
  rw [hask (domain scope) b rfl] at ht
  -- bottom is passed on without a question, and lies below any outcome
  by_cases hbottom : a = bottom
  · rw [if_pos (isBottom_iff.mpr hbottom)] at hs
    obtain rfl := Except.ok.inj hs
    subst hbottom
    exact bottom_le hproper
  · -- only bottom lies in bottom, so the larger box has components as well
    have hbottom' : b ≠ bottom := by
      rintro rfl
      exact hbottom (eq_bottom_of_le hle)
    rw [if_neg fun h => hbottom (isBottom_iff.mp h)] at hs
    rw [if_neg fun h => hbottom' (isBottom_iff.mp h)] at ht
    exact ask_le_ask hq ha hb hle hs ht kind

/-- Proper boxes are ordered. -/
theorem ordered_domain (scope : Scope) : (domain scope).Ordered (Proper scope) where
  toAnswers := answers_domain scope
  refl ha := le_self ha
  trans hc hab hbc := le_trans hc hab hbc
  antisymm ha hb hab hba := le_antisymm ha hb hab hba
  isBottom_bottom := isBottom_iff.mpr rfl
  bottom_le ha := bottom_le ha
  le_top ha := le_top ha
  join_le hc ht ha hb := join_le hc ht ha hb
  join_left ha hb ht := (le_join ha hb ht).1
  join_right ha hb ht := (le_join ha hb ht).2
  widen_left ha hb ht := (le_widen ha hb ht).1
  widen_right ha hb ht := (le_widen ha hb ht).2
  transfer_mono ha hb hle hs ht := transfer_le_transfer ha hb hle hs ht _

end Box

end RangeGuard
