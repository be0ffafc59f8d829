import RangeGuard.Proofs.Analysis.States

/-!
# Settled nodes

What a run has done for the nodes that no longer wait:

1. every state that was sent along an edge has been taken in by the state of its target, unless the
   target still waits;
2. every node that was visited has sent the outcome of its state along each of its edges;
3. the entry has been given all stores, unless it waits;
4. a node that was never visited has bottom.

When nothing waits, all of that holds of every node, in whatever order the nodes were visited.

## One invariant, two readings

That a state has taken in another one may mean two things: that it is around the same stores, or
that it is above it in the order of the domain. Soundness needs the first, and works for domains
that fail; the least solution needs the second. Both are covered by a relation of which a few laws
are asked (`Domain.Encloses`), and the invariant is proved once for such a relation.
-/

namespace RangeGuard

variable {σ : Type}

/-- Between states with the property `P`, the relation `R a b` holds wherever the domain `d` puts
`a` into `b`. -/
structure Domain.Encloses (d : Domain σ) (P : σ → Prop) (R : σ → σ → Prop) : Prop where
  preserves : d.Preserves P
  refl : ∀ {a}, P a → R a a
  trans : ∀ {a b c}, P c → R a b → R b c → R a c
  top : ∀ {a}, P a → R a d.top
  le : ∀ {a b}, d.le a b = .ok true → R a b
  join : ∀ {a b t}, P a → P b → d.join a b = .ok t → R a t ∧ R b t
  widen : ∀ {a b t}, P a → P b → d.widen a b = .ok t → R a t ∧ R b t

namespace Domain.Encloses

open Iteration

variable {it : Iteration σ} {P : σ → Prop} {R : σ → σ → Prop} {run : Run σ} {n : Node} {s : σ}

/-! ## §1 Merging -/

/-- A fold of joins takes in its start and all states that it joins. -/
theorem foldlM_join (hd : it.domain.Encloses P R) {states : List σ} {a t : σ} (ha : P a)
    (hstates : ∀ b ∈ states, P b) (h : states.foldlM it.domain.join a = .ok t) :
    R a t ∧ ∀ b ∈ states, R b t := by
  have ht := hd.preserves.foldlM_join ha hstates h
  induction states generalizing a with
  | nil =>
    obtain rfl : a = t := Except.ok.inj h
    exact ⟨hd.refl ha, nofun⟩
  | cons b states ih =>
    rw [List.foldlM_cons] at h
    obtain ⟨c, hjoin, hrest⟩ := bind_eq_ok_iff.mp h
    rw [List.forall_mem_cons] at hstates ⊢
    obtain ⟨hstart, hothers⟩ := ih (hd.preserves.join ha hstates.1 hjoin) hstates.2 hrest
    -- the later joins take in the result of this one, and with it both of its arguments
    obtain ⟨hleft, hright⟩ := hd.join ha hstates.1 hjoin
    exact ⟨hd.trans ht hleft hstart, hd.trans ht hright hstart, hothers⟩

/-- What arrives at a node has taken in all that was sent to it, and all stores at the entry. -/
theorem gathered (hd : it.domain.Encloses P R) (h : run.States P) (n : Node) :
    R (if n = it.graph.entry then it.domain.top else it.domain.bottom) (it.gathered run n).1 ∧
      ∀ e ∈ it.graph.incoming n, ∀ s, run.sent.getD e none = some s →
        R s (it.gathered run n).1 := by
  have hinitial : P (if n = it.graph.entry then it.domain.top else it.domain.bottom) := by
    split
    · exact hd.preserves.top
    · exact hd.preserves.bottom
  unfold Iteration.gathered
  cases hinflow : it.inflow run n with
  -- a failed join gives top, which takes in everything
  | error fault => exact ⟨hd.top hinitial, fun e _ s hs => hd.top (h.sent e s hs)⟩
  | ok t =>
    have hstates : ∀ b ∈ (it.graph.incoming n).filterMap fun e => run.sent.getD e none, P b := by
      intro b hb
      obtain ⟨e, -, hsent⟩ := List.mem_filterMap.mp hb
      exact h.sent e b hsent
    obtain ⟨hstart, hothers⟩ := hd.foldlM_join hinitial hstates hinflow
    exact ⟨hstart, fun e he s hs => hothers s (List.mem_filterMap.mpr ⟨e, he, hs⟩)⟩

/-- A merge takes in what its incoming states were joined to. -/
theorem merge_of_gathered (hd : it.domain.Encloses P R) (h : run.States P) (n : Node) :
    R (it.gathered run n).1 (it.merge run n).1 := by
  have hgathered := hd.preserves.gathered (n := n) h
  have hbefore := hd.preserves.before h n
  obtain ⟨-, hmerged⟩ | ⟨-, answer, hanswer, hmerged⟩ := merge_cases it run n
  · rw [hmerged]
    exact hd.refl hgathered
  obtain rfl | ⟨fault, -, hmerged⟩ := hmerged
  · split at hanswer
    · exact (hd.widen hbefore hgathered hanswer.symm).2
    · exact (hd.join hbefore hgathered hanswer.symm).2
  · -- the operation failed, and top stands in for its answer
    exact hmerged ▸ hd.top hgathered

/-- So has the merged state of the node. -/
private theorem merge_of_sent (hd : it.domain.Encloses P R) (h : run.States P) {e : Nat}
    {edge : Edge} (hedge : it.graph.edges[e]? = some edge) (hsent : run.sent.getD e none = some s) :
    R s (it.merge run edge.target).1 := by
  have he : e ∈ it.graph.incoming edge.target := FlowGraph.mem_incoming.mpr ⟨edge, hedge, rfl⟩
  exact hd.trans (hd.preserves.merge h) ((hd.gathered h _).2 e he s hsent)
    (hd.merge_of_gathered h _)

/-- The merged state of the entry has taken in all stores. -/
private theorem merge_entry (hd : it.domain.Encloses P R) (h : run.States P) :
    R it.domain.top (it.merge run it.graph.entry).1 := by
  have hstart := (hd.gathered h it.graph.entry).1
  rw [if_pos rfl] at hstart
  exact hd.trans (hd.preserves.merge h) hstart (hd.merge_of_gathered h _)

/-- What an edge carries takes in what it was sent. -/
theorem of_carries (hd : it.domain.Encloses P R) {e : Nat} {a : σ} (hs : P s)
    (h : it.Carries run e s) (ha : run.sent.getD e none = some a) : R s a := by
  obtain ⟨b, hb, rfl | hequal⟩ := h
  · obtain rfl := Option.some.inj (ha.symm.trans hb)
    exact hd.refl hs
  · obtain rfl := Option.some.inj (ha.symm.trans hb)
    -- the edge kept its state because the domain found the two equal
    exact hd.le (Domain.equal_eq_true_iff.mp hequal).2

/-- The visit of a node gives it a state that takes in its merged state. -/
theorem visit_self (hd : it.domain.Encloses P R) (hshape : it.Shaped run) (h : run.States P)
    (hn : n < it.graph.size) : (it.visit run n).visited.getD n false = true ∧
      R (it.merge run n).1 ((it.visit run n).before.getD n it.domain.bottom) := by
  rcases visit_cases hshape.sent n with hquiet | hspreads
  · rw [hquiet.visited_eq, hquiet.before_eq]
    exact ⟨hquiet.visited, hd.le (Domain.equal_eq_true_iff.mp hquiet.same).1⟩
  · rw [hspreads.before_self hshape hn]
    exact ⟨hspreads.visited_self hshape hn, hd.refl (hd.preserves.merge h)⟩

end Domain.Encloses

namespace Iteration

variable {it : Iteration σ} {P : σ → Prop} {R : σ → σ → Prop} {run : Run σ} {n : Node}

/-! ## §2 The invariant -/

/-- All nodes but the pending ones have taken in what was sent to them, all visited nodes have sent
the outcome of their states, and no other node has a state. -/
structure Settled (it : Iteration σ) (R : σ → σ → Prop) (pending : Node → Prop) (run : Run σ) :
    Prop where
  entry : pending it.graph.entry ∨ run.visited.getD it.graph.entry false = true ∧
    R it.domain.top (run.before.getD it.graph.entry it.domain.bottom)
  taken : ∀ e edge s, it.graph.edges[e]? = some edge → run.sent.getD e none = some s →
    pending edge.target ∨ run.visited.getD edge.target false = true ∧
      R s (run.before.getD edge.target it.domain.bottom)
  given : ∀ e edge, it.graph.edges[e]? = some edge → run.visited.getD edge.source false = true →
    ∃ s, run.sent.getD e none = some s ∧
      R ((it.outcome edge.source (run.before.getD edge.source it.domain.bottom)).1.along
        edge.kind) s
  unvisited : ∀ n, run.visited.getD n false = false → run.before.getD n it.domain.bottom =
    it.domain.bottom

/-- At the start the entry waits and nothing has been sent. -/
private theorem settled_start (it : Iteration σ) (R : σ → σ → Prop) :
    it.Settled R (· ∈ it.start.queue) it.start where
  entry := .inl (List.mem_singleton_self _)
  taken e edge s _ hsent := by
    rw [sent_start] at hsent
    cases hsent
  given e edge hedge hvisited := by
    rw [start, List.getD_replicate _ (FlowGraph.source_lt_size hedge)] at hvisited
    cases hvisited
  unvisited n _ := before_start it n

/-- A visit takes no other node out of the queue. -/
private theorem mem_queue_visit (hshape : it.Shaped run) {t : Node} (ht : t ∈ run.queue) :
    t ∈ (it.visit run n).queue := by
  rcases visit_cases hshape.sent n with hquiet | hspreads
  · exact hquiet.queue_eq.symm ▸ ht
  · exact hspreads.sends.mem_queue ht

/-- A visit makes its node take in whatever its merged state takes in. What the other nodes have
taken in stays so, and those that waited still wait. -/
private theorem taken_visit (hd : it.domain.Encloses P R) (hshape : it.Shaped run)
    (hstates : run.States P) (hn : n < it.graph.size) {t : Node} {s : σ}
    (hmerged : t = n → R s (it.merge run n).1)
    (h : (t = n ∨ t ∈ run.queue) ∨ run.visited.getD t false = true ∧
      R s (run.before.getD t it.domain.bottom)) :
    t ∈ (it.visit run n).queue ∨ (it.visit run n).visited.getD t false = true ∧
      R s ((it.visit run n).before.getD t it.domain.bottom) := by
  by_cases ht : t = n
  · obtain ⟨hvisited, hself⟩ := hd.visit_self hshape hstates hn
    have hbefore := hd.preserves.before (hd.preserves.states_visit hshape.sent hstates n)
    rw [ht]
    exact .inr ⟨hvisited, hd.trans (hbefore n) (hmerged ht) hself⟩
  · rw [(visit_of_ne hshape hn ht).1, (visit_of_ne hshape hn ht).2]
    rcases h with (hpending | hqueued) | htaken
    · exact absurd hpending ht
    · exact .inl (mem_queue_visit hshape hqueued)
    · exact .inr htaken

/-- After a visit, all visited nodes have sent the outcome of their states. -/
private theorem given_visit (hd : it.domain.Encloses P R) (hshape : it.Shaped run)
    (hstates : run.States P) (hn : n < it.graph.size) {pending : Node → Prop}
    (h : it.Settled R pending run) {e : Nat} {edge : Edge}
    (hedge : it.graph.edges[e]? = some edge)
    (hsource : (it.visit run n).visited.getD edge.source false = true) :
    ∃ s, (it.visit run n).sent.getD e none = some s ∧
      R ((it.outcome edge.source ((it.visit run n).before.getD edge.source
        it.domain.bottom)).1.along edge.kind) s := by
  rcases visit_cases hshape.sent n with hquiet | hspreads
  · rw [hquiet.visited_eq] at hsource
    rw [hquiet.sent_eq, hquiet.before_eq]
    exact h.given e edge hedge hsource
  · by_cases hn' : edge.source = n
    · -- the node has just sent the outcome of its new state along this edge
      subst hn'
      obtain ⟨s, hs, hcarried⟩ := hspreads.sends.carries e
        (FlowGraph.mem_outgoing.mpr ⟨edge, hedge, rfl⟩) edge hedge
      rw [hspreads.before_self hshape hn]
      have houtcome := hd.preserves.outcome (n := edge.source)
        (hd.preserves.merge (n := edge.source) hstates) edge.kind
      exact ⟨s, hs, hd.of_carries houtcome ⟨s, hs, hcarried⟩ hs⟩
    · have hkept := (sent_visit hshape hn hedge).resolve_right fun h => hn' h.1
      rw [(visit_of_ne hshape hn hn').1] at hsource
      rw [hkept, (visit_of_ne hshape hn hn').2]
      exact h.given e edge hedge hsource

/-- The visit of a node settles it: it takes in all that was sent to it, and what it sends is taken
in by nodes that wait. -/
theorem Settled.visit (hd : it.domain.Encloses P R) (hshape : it.Shaped run)
    (hstates : run.States P) (hn : n < it.graph.size)
    (h : it.Settled R (fun t => t = n ∨ t ∈ run.queue) run) :
    it.Settled R (· ∈ (it.visit run n).queue) (it.visit run n) where
  entry := taken_visit hd hshape hstates hn (fun hentry => hentry ▸ hd.merge_entry hstates) h.entry
  taken e edge s hedge hsent := by
    -- a state that the visit sent is for a node that it queued, so only old states matter
    rcases sent_visit hshape hn hedge with hkept | ⟨-, hqueued, -⟩
    · rw [hkept] at hsent
      have hmerged := hd.merge_of_sent hstates hedge hsent
      exact taken_visit hd hshape hstates hn (fun htarget => htarget ▸ hmerged)
        (h.taken e edge s hedge hsent)
    · exact .inl hqueued
  given e edge hedge hsource := given_visit hd hshape hstates hn h hedge hsource
  unvisited t ht := by
    have hne : t ≠ n := by
      rintro rfl
      rw [(hd.visit_self hshape hstates hn).1] at ht
      cases ht
    rw [(visit_of_ne hshape hn hne).1] at ht
    rw [(visit_of_ne hshape hn hne).2]
    exact h.unvisited t ht

/-- The invariant along every run. -/
theorem settled_of_reaches (hd : it.domain.Encloses P R) (h : it.Reaches run) :
    it.Settled R (· ∈ run.queue) run := by
  refine reaches_induction (motive := fun run => it.Settled R (· ∈ run.queue) run)
    (settled_start it R) ?_ h
  intro run n rest hreaches hshape hn hqueue hsettled
  have hstates := hd.preserves.states_reaches hreaches
  -- the node that leaves the queue stays pending until it has been visited
  refine Settled.visit hd hshape (hstates.withQueue rest) hn ?_
  simp only [hqueue.mem_iff, List.mem_cons] at hsettled
  exact ⟨hsettled.entry, hsettled.taken, hsettled.given, hsettled.unvisited⟩

end Iteration

end RangeGuard
