import RangeGuard.Proofs.Analysis.States
import RangeGuard.Proofs.Box.Order
import RangeGuard.Proofs.Interval.Canonical

/-!
# Boxes stay well-formed

A well-formed box is bottom or has one canonical nonempty interval for each variable. Interval
arithmetic keeps intervals canonical, and boxes with an empty component collapse to bottom, so every
operation on boxes gives well-formed boxes from well-formed ones.

The statement that the rest of the development uses is `Box.preserves_wellFormed`. It has the form
in which the analysis asks for invariants of its states (`Domain.Preserves`), so that all states of
an analysis over boxes are well-formed without another induction. What precedes it follows the
operations down to single components: a look-up, a replaced component, the range of an expression,
one step of a refinement.
-/

namespace RangeGuard

/-! ## Ranges of expressions -/

/-- The range of an expression is canonical if those of its variables are. -/
theorem Arith.canonical_range {ρ : String → Interval} (h : ∀ x, (ρ x).Canonical) (e : Arith) :
    (e.range ρ).Canonical := by
  induction e with
  | var x => exact h x
  | const n => exact Interval.canonical_point n
  | add a b iha ihb => exact iha.add ihb
  | sub a b iha ihb => exact iha.sub ihb
  | mul a b iha ihb => exact iha.mul ihb
  | div a b iha ihb => exact iha.tdiv ihb
  | rem a b iha ihb => exact iha.tmod ihb
  | neg a iha => exact iha.neg

namespace Box

variable {scope : Scope} {a b t : Box} {cs ds : List Interval} {x : String}

/-! ## Components -/

/-- Look-ups in canonical components are canonical, also outside the scope. -/
theorem canonical_lookup (h : ∀ i ∈ cs, i.Canonical) (x : String) : (lookup scope cs x).Canonical :=
  lookup_of_forall Interval.canonical_full h x

private theorem canonical_set {k : Nat} {i : Interval} (h : ∀ i ∈ cs, i.Canonical)
    (hi : i.Canonical) :
    ∀ j ∈ cs.set k i, j.Canonical := by
  intro j hj
  rcases List.mem_or_eq_of_mem_set hj with hj | rfl
  · exact h j hj
  · exact hi

private theorem canonical_update {i : Interval} (h : ∀ i ∈ cs, i.Canonical) (hi : i.Canonical) :
    ∀ j ∈ update scope cs x i, j.Canonical := by
  unfold update
  split
  · exact canonical_set h hi
  · exact h

/-! ## Refinement -/

/-- So is the range of the rest of a form. -/
theorem canonical_restRange (h : ∀ i ∈ cs, i.Canonical) (f : LinearForm) (x : String) :
    (restRange scope cs f x).Canonical := by
  refine List.foldlRecOn (motive := Interval.Canonical) f.terms _ (Interval.canonical_point _) ?_
  intro i hi term _
  split
  · exact hi
  · exact hi.add ((Interval.canonical_point _).mul (canonical_lookup h term.1))

/-- Tightening divides by coefficients of a normal form, which are not zero. -/
theorem canonical_tighten {f : LinearForm} (hf : f.Normal) {region : Interval}
    (hregion : region.Canonical) (h : ∀ i ∈ cs, i.Canonical) :
    ∀ i ∈ tighten scope f region cs, i.Canonical := by
  have hround : ∀ {cs : List Interval}, (∀ i ∈ cs, i.Canonical) →
      ∀ i ∈ tightenRound scope f region cs, i.Canonical := by
    intro cs h
    -- the fold keeps all components canonical, one replaced component at a time
    refine List.foldlRecOn (motive := fun cs => ∀ i ∈ cs, Interval.Canonical i) f.terms _ h ?_
    intro cs h term hterm
    apply canonical_update h
    apply (canonical_lookup h term.1).meet
    exact (hregion.sub (canonical_restRange h f term.1)).divExact (hf.nonzero _ hterm)
  exact hround (hround h)

/-- Cutting off an end moves it to the next integer, and never to an infinity. -/
private theorem canonical_trimEnd {i : Interval} (hi : i.Canonical) (n : Int) :
    (trimEnd i n).Canonical := by
  unfold trimEnd
  rcases hi with rfl | ⟨hle, hlow, hhigh⟩
  · exact Interval.canonical_empty
  · split
    · exact Interval.canonical_between nofun hhigh
    · split
      · exact Interval.canonical_between hlow nofun
      · exact .inr ⟨hle, hlow, hhigh⟩

/-- Excluding the zero of a form keeps the components canonical. -/
theorem canonical_exclude (f : LinearForm) (h : ∀ i ∈ cs, i.Canonical) :
    ∀ i ∈ exclude scope f cs, i.Canonical := by
  refine List.foldlRecOn (motive := fun cs => ∀ i ∈ cs, Interval.Canonical i) f.terms _ h ?_
  intro cs h term _
  unfold excludeTerm
  split
  · exact h
  · split
    · exact canonical_update h (canonical_trimEnd (canonical_lookup h term.1) _)
    · exact h

theorem canonical_region {r : Relation} {region : Interval} (h : region? r = some region) :
    region.Canonical := by
  cases r with
  | eq => exact Option.some.inj h ▸ Interval.canonical_point 0
  | ne => cases h
  | ge => exact Option.some.inj h ▸ Interval.canonical_between nofun nofun
  | gt => exact Option.some.inj h ▸ Interval.canonical_between nofun nofun

/-- The components after a refinement are canonical. -/
private theorem canonical_of_refine? {c : Constraint} {refined : List Interval}
    (h : ∀ i ∈ cs, i.Canonical) (hrefined : refine? scope cs c = some refined) :
    ∀ i ∈ refined, i.Canonical := by
  unfold refine? at hrefined
  dsimp only at hrefined
  -- a refinement tightens, excludes or leaves the components alone
  split at hrefined
  · rename_i region hregion
    split at hrefined
    · cases hrefined
    · split at hrefined
      · rename_i f hlinear
        obtain rfl := Option.some.inj hrefined
        exact canonical_tighten (Arith.normal_of_linear? hlinear) (canonical_region hregion) h
      · exact Option.some.inj hrefined ▸ h
  · split at hrefined
    · cases hrefined
    · split at hrefined
      · exact Option.some.inj hrefined ▸ canonical_exclude _ h
      · exact Option.some.inj hrefined ▸ h

/-! ## Boxes -/

/-- A well-formed box is a proper one with canonical components. -/
private theorem wellFormed_iff : WellFormed scope b ↔
    Proper scope b ∧ ∀ cs, b = reachable cs → ∀ i ∈ cs, i.Canonical := by
  cases b with
  | bottom => exact ⟨fun _ => ⟨trivial, nofun⟩, fun _ => trivial⟩
  | reachable cs =>
    constructor
    · rintro ⟨hlen, h⟩
      refine ⟨⟨hlen, fun i hi => (h i hi).2⟩, ?_⟩
      rintro _ ⟨⟩ i hi
      exact (h i hi).1
    · rintro ⟨⟨hlen, hne⟩, h⟩
      exact ⟨hlen, fun i hi => ⟨h cs rfl i hi, hne i hi⟩⟩

theorem WellFormed.proper (h : WellFormed scope b) : Proper scope b := (wellFormed_iff.mp h).1

theorem WellFormed.canonical (h : WellFormed scope (reachable cs)) : ∀ i ∈ cs, i.Canonical :=
  fun i hi => (h.2 i hi).1

/-- Canonical components give a well-formed box, whether or not they collapse. -/
theorem wellFormed_ofComponents (hlen : cs.length = scope.size) (h : ∀ i ∈ cs, i.Canonical) :
    WellFormed scope (ofComponents cs) := by
  refine wellFormed_iff.mpr ⟨proper_ofComponents hlen, ?_⟩
  intro ds hds
  unfold ofComponents at hds
  split at hds
  · cases hds
  · cases hds
    exact h

/-- Intervals combined one by one are canonical if the operation keeps intervals canonical. -/
theorem canonical_zipWith {f : Interval → Interval → Interval}
    (hf : ∀ {i j : Interval}, i.Canonical → j.Canonical → (f i j).Canonical)
    (hcs : ∀ i ∈ cs, i.Canonical) (hds : ∀ i ∈ ds, i.Canonical) :
    ∀ i ∈ List.zipWith f cs ds, i.Canonical := by
  intro i hi
  rw [← List.map_uncurry_zip_eq_zipWith] at hi
  obtain ⟨p, hp, rfl⟩ := List.mem_map.mp hi
  obtain ⟨hfst, hsnd⟩ := List.of_mem_zip hp
  exact hf (hcs p.1 hfst) (hds p.2 hsnd)

/-- Combining two boxes by an operation that keeps intervals canonical keeps boxes well-formed. -/
theorem wellFormed_pointwise {f : Interval → Interval → Interval}
    (hf : ∀ {i j : Interval}, i.Canonical → j.Canonical → (f i j).Canonical)
    (ha : WellFormed scope a) (hb : WellFormed scope b) (ht : pointwise scope f a b = .ok t) :
    WellFormed scope t := by
  obtain ⟨-, rfl⟩ | ⟨-, rfl⟩ | ⟨cs, ds, rfl, rfl, hcs, hds, rfl⟩ := pointwise_cases ht
  · exact hb
  · exact ha
  · apply wellFormed_ofComponents (by simp [hcs, hds])
    exact canonical_zipWith hf ha.canonical hb.canonical

theorem wellFormed_top (scope : Scope) : WellFormed scope (top scope) := by
  refine ⟨List.length_replicate, fun i hi => ?_⟩
  rw [List.eq_of_mem_replicate hi]
  exact ⟨Interval.canonical_full, rfl⟩

/-- The operations on boxes keep them well-formed. -/
theorem preserves_wellFormed (scope : Scope) : (domain scope).Preserves (WellFormed scope) where
  top := wellFormed_top scope
  bottom := trivial
  join ha hb ht := wellFormed_pointwise Interval.Canonical.join ha hb ht
  widen ha hb ht := wellFormed_pointwise Interval.Canonical.widen ha hb ht
  assign {s x e t} hs ht := by
    obtain ⟨-, rfl⟩ | ⟨k, cs, -, rfl, hlen, rfl⟩ := assign_cases ht
    · trivial
    · apply wellFormed_ofComponents (by rw [List.length_set, hlen])
      exact canonical_set hs.canonical (Arith.canonical_range (canonical_lookup hs.canonical) e)
  forget {s x t} hs ht := by
    obtain ⟨-, rfl⟩ | ⟨k, cs, -, rfl, hlen, rfl⟩ := forget_cases ht
    · trivial
    · -- forgetting does not collapse, so nonemptiness is taken from the proper box
      refine wellFormed_iff.mpr ⟨proper_forget hs.proper ht, ?_⟩
      rintro _ ⟨⟩
      exact canonical_set hs.canonical Interval.canonical_full
  constrain {s c t} hs ht := by
    obtain ⟨-, rfl⟩ | ⟨cs, rfl, hlen, ⟨-, rfl⟩ | ⟨refined, hrefined, rfl⟩⟩ := constrain_cases ht
    · trivial
    · trivial
    · apply wellFormed_ofComponents ((length_of_refine? hrefined).trans hlen)
      exact canonical_of_refine? hs.canonical hrefined

end Box

end RangeGuard
