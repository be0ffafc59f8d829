import Mathlib.Logic.Function.Iterate
import Mathlib.Logic.Relation
import RangeGuard.Allocation.PointsTo

/-!
# Copies followed to the end

Following copies, sweep after sweep, finds the holders of an object: the locals to which a chain of
copies leads from a local that had the object at first. The order of the copies decides how many
sweeps it takes and nothing else, also where chains run against it or in circles.

Two facts make up the proof. One step adds the target of a copy whose source is a holder, so every
holder that is found stands at the end of a chain (`ValueFlow.Spreads`); that is an invariant of
steps, sweeps and the whole search. The last sweep changes nothing, so the holders are closed under
copies (`ValueFlow.Closed`), and no chain leads out of them. The second fact needs an argument,
because a sweep is a loop over the copies: a copy that adds a holder would have left the list longer
than it was.

The search goes on for all objects at once, those from elsewhere and those of each site. What it
does to the holders of one object does not depend on the others, so §1 is about one object and §2
carries it over to all.
-/

open Relation (ReflTransGen)

namespace RangeGuard

namespace ValueFlow

variable {copies : List (String × String)} {copy : String × String} {holders found : List String}
  {x : String}

/-! ## §1 One object -/

/-- The locals found are the holders and other locals to which chains of copies lead from holders.
-/
structure Spreads (copies : List (String × String)) (holders found : List String) : Prop where
  keeps : ∀ x ∈ holders, x ∈ found
  chained : ∀ x ∈ found, ∃ y ∈ holders, ReflTransGen (fun a b => (a, b) ∈ copies) x y

/-- Nothing has been found yet. -/
theorem Spreads.refl (copies : List (String × String)) (holders : List String) :
    Spreads copies holders holders :=
  ⟨fun _ hx => hx, fun x hx => ⟨x, hx, .refl⟩⟩

/-- What was found from what was found. -/
theorem Spreads.trans {later : List String} (h : Spreads copies holders found)
    (h' : Spreads copies found later) : Spreads copies holders later := by
  refine ⟨fun x hx => h'.keeps x (h.keeps x hx), fun x hx => ?_⟩
  obtain ⟨y, hy, hxy⟩ := h'.chained x hx
  obtain ⟨z, hz, hyz⟩ := h.chained y hy
  exact ⟨z, hz, hxy.trans hyz⟩

/-- The step of a sweep: one copy is followed. -/
theorem spreads_passOn (hcopy : copy ∈ copies) (holders : List String) :
    Spreads copies holders (passOn copy holders) := by
  rcases passOn_eq copy holders with hsame | ⟨hsource, -, hadded⟩
  · rw [hsame]
    exact Spreads.refl copies holders
  · rw [hadded]
    refine ⟨fun x hx => List.mem_cons_of_mem _ hx, List.forall_mem_cons.mpr ⟨?_, fun x hx => ?_⟩⟩
    · exact ⟨copy.2, hsource, .single hcopy⟩
    · exact ⟨x, hx, .refl⟩

/-- Follows each of the copies once for one object. -/
def passAll (copies : List (String × String)) (holders : List String) : List String :=
  copies.foldl (fun holders copy => passOn copy holders) holders

/-- A sweep for one object. -/
private theorem spreads_passAll (copies : List (String × String)) (holders : List String) :
    Spreads copies holders (passAll copies holders) := by
  refine List.foldlRecOn (motive := Spreads copies holders) copies _
    (Spreads.refl copies holders) ?_
  intro found hfound copy hcopy
  exact hfound.trans (spreads_passOn hcopy found)

/-- No copy adds a holder. -/
def Closed (copies : List (String × String)) (holders : List String) : Prop :=
  ∀ copy ∈ copies, copy.2 ∈ holders → copy.1 ∈ holders

/-- A copy adds a holder or changes nothing. -/
private theorem length_passOn (copy : String × String) (holders : List String) :
    passOn copy holders = holders ∨ holders.length < (passOn copy holders).length := by
  rcases passOn_eq copy holders with hsame | ⟨-, -, hadded⟩
  · exact .inl hsame
  · rw [hadded]
    exact .inr (Nat.lt_succ_self _)

private theorem length_le_passAll (copies : List (String × String)) (holders : List String) :
    holders.length ≤ (passAll copies holders).length := by
  induction copies generalizing holders with
  | nil => exact Nat.le_refl _
  | cons copy copies ih =>
    apply Nat.le_trans _ (ih (passOn copy holders))
    rcases length_passOn copy holders with hsame | hlonger
    · exact Nat.le_of_eq (congrArg List.length hsame.symm)
    · exact Nat.le_of_lt hlonger

/-- If following all copies changes nothing, then no single copy adds a holder. -/
theorem closed_of_passAll_eq (h : passAll copies holders = holders) : Closed copies holders := by
  induction copies with
  | nil => exact nofun
  | cons copy copies ih =>
    have hrest : passAll copies (passOn copy holders) = holders := h
    -- the first copy adds nothing, since what it adds would stay
    have hfirst : passOn copy holders = holders := by
      apply (length_passOn copy holders).resolve_right
      have hlength := length_le_passAll copies (passOn copy holders)
      rw [hrest] at hlength
      omega
    rw [hfirst] at hrest
    refine List.forall_mem_cons.mpr ⟨fun hsource => ?_, ih hrest⟩
    rw [passOn, if_pos hsource] at hfirst
    rw [← hfirst]
    exact List.mem_insert_iff.mpr (.inl rfl)

/-- Locals that are closed under copies and were found along them are all to which chains lead. -/
theorem Spreads.mem_iff (h : Spreads copies holders found) (hclosed : Closed copies found) :
    x ∈ found ↔ ∃ y ∈ holders, ReflTransGen (fun a b => (a, b) ∈ copies) x y := by
  constructor
  · exact h.chained x
  · rintro ⟨y, hy, hchain⟩
    -- induction on the chain, from the holder at its end
    induction hchain using ReflTransGen.head_induction_on with
    | refl => exact h.keeps y hy
    | head hcopy _ ih => exact hclosed _ hcopy ih

end ValueFlow

/-! ## §2 All objects -/

namespace Holdings

open ValueFlow (Spreads Closed passAll)

variable {copies : List (String × String)} {held : Holdings}

private theorem mapHolders_mapHolders (f f' : List String → List String) (held : Holdings) :
    (held.mapHolders f).mapHolders f' = held.mapHolders fun holders => f' (f holders) := by
  simp [mapHolders]

/-- A sweep treats the objects one by one. -/
private theorem sweep_eq (copies : List (String × String)) (held : Holdings) :
    sweep copies held = held.mapHolders (passAll copies) := by
  unfold sweep
  induction copies generalizing held with
  | nil => simp [mapHolders, passAll]
  | cons copy copies ih =>
    rw [List.foldl_cons, ih, pass, mapHolders_mapHolders]
    rfl

/-- What is found is found along chains of copies. -/
theorem exists_solve (copies : List (String × String)) (held : Holdings) :
    ∃ f, solve copies held = held.mapHolders f ∧ ∀ holders, Spreads copies holders (f holders) := by
  fun_induction solve copies held with
  | case1 held _ => exact ⟨id, by simp [mapHolders], Spreads.refl copies⟩
  | case2 held _ _ ih =>
    obtain ⟨f, hf, hspreads⟩ := ih
    refine ⟨fun holders => f (passAll copies holders), ?_, fun holders => ?_⟩
    · rw [hf, sweep_eq, mapHolders_mapHolders]
    · exact (ValueFlow.spreads_passAll copies holders).trans (hspreads _)

/-- The last sweep changes nothing. -/
theorem sweep_solve (copies : List (String × String)) (held : Holdings) :
    sweep copies (solve copies held) = solve copies held := by
  fun_induction solve copies held with
  | case1 held hstable => exact hstable
  | case2 held _ _ ih => exact ih

/-- Every sweep but the last one leaves fewer copies that can add a holder. -/
theorem exists_iterate_sweep (copies : List (String × String)) (held : Holdings) :
    ∃ k ≤ held.missing copies, (sweep copies)^[k] held = solve copies held := by
  fun_induction solve copies held with
  | case1 held _ => exact ⟨0, Nat.zero_le _, rfl⟩
  | case2 held _ hfewer ih =>
    obtain ⟨k, hk, hiterate⟩ := ih
    exact ⟨k + 1, Nat.lt_of_le_of_lt hk hfewer, hiterate⟩

/-- At most every copy can add a holder, for the objects from elsewhere and for those of each site.
-/
theorem missing_le (copies : List (String × String)) (held : Holdings) :
    held.missing copies ≤ copies.length * (held.sites.length + 1) := by
  obtain ⟨unresolved, sites⟩ := held
  have hone (holders : List String) :
      (ValueFlow.copiesElsewhere copies holders).length ≤ copies.length :=
    List.length_filter_le _ copies
  -- the count is a sum over the objects
  induction sites with
  | nil => simpa [missing, total] using hone unresolved
  | cons site sites ih =>
    simp only [missing, total, List.foldr_cons, List.length_cons] at ih ⊢
    have hsite := hone site.2
    rw [Nat.mul_add_one]
    omega

/-- If a sweep changes nothing, the holders of every object are closed. -/
private theorem closed_of_sweep_eq (h : sweep copies held = held) :
    Closed copies held.unresolved ∧ ∀ site ∈ held.sites, Closed copies site.2 := by
  rw [sweep_eq] at h
  constructor
  · exact ValueFlow.closed_of_passAll_eq (congrArg unresolved h)
  · intro site hsite
    have hsites : held.sites.map (fun site => (site.1, passAll copies site.2)) =
        held.sites.map id := by
      rw [List.map_id]
      exact congrArg sites h
    have hsame := List.map_inj_left.mp hsites site hsite
    exact ValueFlow.closed_of_passAll_eq (congrArg Prod.snd hsame)

end Holdings

/-! ## §3 Answers -/

namespace ValueFlow

variable {x y : String} {flow : ValueFlow} {sites : List Node} {site : Node}

/-- The locals from which an object can reach `x` along copies, `x` included. -/
def origins (flow : ValueFlow) (x : String) : Set String :=
  {y | ReflTransGen (fun a b => (a, b) ∈ flow.copies) x y}

theorem mem_origins_iff : y ∈ flow.origins x ↔
    ReflTransGen (fun a b => (a, b) ∈ flow.copies) x y := Iff.rfl

/-- The solution is reached after a bounded number of sweeps, and another one changes nothing. -/
theorem solution_reached (flow : ValueFlow) :
    (∃ k ≤ flow.copies.length * (flow.allocations.length + 1),
      (Holdings.sweep flow.copies)^[k] flow.seeds = flow.solution) ∧
    Holdings.sweep flow.copies flow.solution = flow.solution := by
  obtain ⟨k, hk, hiterate⟩ := Holdings.exists_iterate_sweep flow.copies flow.seeds
  have hmissing := Holdings.missing_le flow.copies flow.seeds
  rw [seeds, List.length_map] at hmissing
  exact ⟨⟨k, Nat.le_trans hk hmissing, hiterate⟩, Holdings.sweep_solve flow.copies flow.seeds⟩

/-- The solution lists the locals with an unresolved origin, and for each allocation the locals with
its receiver as an origin. -/
theorem exists_solution (flow : ValueFlow) : ∃ f : List String → List String,
    flow.solution = flow.seeds.mapHolders f ∧
    (∀ x, x ∈ f flow.unresolved ↔ ∃ y ∈ flow.unresolved, y ∈ flow.origins x) ∧
    ∀ a ∈ flow.allocations, ∀ x, x ∈ f [a.1] ↔ a.1 ∈ flow.origins x := by
  obtain ⟨f, hf, hspreads⟩ := Holdings.exists_solve flow.copies flow.seeds
  obtain ⟨hunresolved, hsites⟩ := Holdings.closed_of_sweep_eq
    (Holdings.sweep_solve flow.copies flow.seeds)
  rw [hf] at hunresolved hsites
  -- the holders that were found are closed, so they are all to which chains lead
  refine ⟨f, hf, fun x => (hspreads _).mem_iff hunresolved, fun a ha x => ?_⟩
  have hsite : (a.2, f [a.1]) ∈ (flow.seeds.mapHolders f).sites :=
    List.mem_map.mpr ⟨(a.2, [a.1]), List.mem_map.mpr ⟨a, ha, rfl⟩, rfl⟩
  rw [(hspreads [a.1]).mem_iff (hsites _ hsite)]
  simp [mem_origins_iff]

/-- A local is not resolved if one of its origins is not. -/
theorem targets_eq_none_iff :
    flow.targets x = none ↔ ∃ y ∈ flow.origins x, y ∈ flow.unresolved := by
  obtain ⟨f, hf, hunresolved, -⟩ := flow.exists_solution
  have hmem : x ∈ flow.solution.unresolved ↔ ∃ y ∈ flow.origins x, y ∈ flow.unresolved := by
    rw [hf]
    exact (hunresolved x).trans (by simp only [and_comm])
  rw [← hmem]
  simp [targets]

/-- The sites of an answer are those of the allocations whose receiver is an origin, in their order.
-/
theorem targets_eq_some (h : flow.targets x = some sites) : ∃ among : String × Node → Bool,
    sites = (flow.allocations.filter among).map (·.2) ∧
    ∀ a ∈ flow.allocations, among a = true ↔ a.1 ∈ flow.origins x := by
  obtain ⟨f, hf, -, hsites⟩ := flow.exists_solution
  unfold targets at h
  dsimp only at h
  split at h
  · cases h
  · obtain rfl := Option.some.inj h
    refine ⟨fun a => decide (x ∈ f [a.1]), ?_, fun a ha => ?_⟩
    · rw [hf]
      simp [Holdings.mapHolders, seeds, List.filter_map, Function.comp_def]
    · rw [decide_eq_true_iff]
      exact hsites a ha x

/-- The sites of a local are those of its origins. -/
theorem mem_targets_iff (h : flow.targets x = some sites) :
    site ∈ sites ↔ ∃ y ∈ flow.origins x, (y, site) ∈ flow.allocations := by
  obtain ⟨among, rfl, hamong⟩ := targets_eq_some h
  simp only [List.mem_map, List.mem_filter]
  constructor
  · rintro ⟨⟨y, site⟩, ⟨ha, hy⟩, rfl⟩
    exact ⟨y, (hamong _ ha).mp hy, ha⟩
  · rintro ⟨y, hy, ha⟩
    exact ⟨(y, site), ⟨ha, (hamong _ ha).mpr hy⟩, rfl⟩

end ValueFlow

end RangeGuard
