import RangeGuard.Domain.Faulty

/-!
# Sound domains

A state of a numeric domain stands for a set of valuations of the tracked variables. A domain is
sound for such a reading if every operation that answers answers with a state around the right
valuations.

Nothing is asked of an operation that fails. The laws of `Domain.Sound` all have an answer as their
hypothesis, so that a domain which fails anywhere may still be sound, and a sound domain stays sound
under every fault plan (`Domain.Sound.withFaults`). The analysis is verified against these laws
alone. Boxes satisfy them, and a different domain would only have to do the same.

A reading speaks about valuations of the scope and not about whole stores. Variables outside the
scope cannot be constrained by a state, which is why assigning to one of them is harmless
(`Store.restrict_set_of_not_mem`).
-/

namespace RangeGuard

/-! ## §1 Answers -/

/-- A sequence of two operations answers if the first one does and the second one does on its
answer. -/
theorem bind_eq_ok_iff {ε α β : Type} {x : Except ε α} {f : α → Except ε β} {b : β} :
    x >>= f = .ok b ↔ ∃ a, x = .ok a ∧ f a = .ok b := by
  cases x with
  | error fault => simp [bind, Except.bind]
  | ok a => simp [bind, Except.bind]

/-- A sequence of two operations fails if the first one does, or the second one on its answer. -/
theorem bind_eq_error_iff {ε α β : Type} {x : Except ε α} {f : α → Except ε β} {fault : ε} :
    x >>= f = .error fault ↔ x = .error fault ∨ ∃ a, x = .ok a ∧ f a = .error fault := by
  cases x with
  | error fault' => simp [bind, Except.bind]
  | ok a => simp [bind, Except.bind]

/-- A mapped operation answers if the operation does. -/
theorem map_eq_ok_iff {ε α β : Type} {x : Except ε α} {f : α → β} {b : β} :
    x.map f = .ok b ↔ ∃ a, x = .ok a ∧ f a = b := by
  cases x with
  | error fault => simp [Except.map]
  | ok a => simp [Except.map]

/-- States are found equal only after both inclusions have been confirmed. -/
theorem Domain.equal_eq_true_iff {σ : Type} {d : Domain σ} {a b : σ} :
    d.equal a b = .ok true ↔ d.le a b = .ok true ∧ d.le b a = .ok true := by
  unfold equal
  rw [bind_eq_ok_iff]
  constructor
  · rintro ⟨included, hle, hback⟩
    -- the second inclusion is tried only after the first has been confirmed
    cases included with
    | false => cases hback
    | true => exact ⟨hle, hback⟩
  · exact fun ⟨hle, hback⟩ => ⟨true, hle, hback⟩

/-! ## §2 Valuations -/

/-- Integers for the variables of a scope. -/
abbrev Scope.Valuation (scope : Scope) : Type := { x // x ∈ scope.names } → Int

namespace Store

/-- The values that a store gives to the variables of a scope. -/
def restrict (ρ : Store) (scope : Scope) : scope.Valuation := fun x => ρ x.1

/-- Every valuation of a scope is that of some store. -/
theorem exists_restrict_eq {scope : Scope} (v : scope.Valuation) :
    ∃ ρ : Store, ρ.restrict scope = v :=
  ⟨fun x => if h : x ∈ scope.names then v ⟨x, h⟩ else 0, funext fun x => dif_pos x.2⟩

/-- Writing a variable outside the scope is not seen in the scope. -/
theorem restrict_set_of_not_mem {scope : Scope} {x : String} (h : x ∉ scope.names) (ρ : Store)
    (n : Int) : (ρ.set x n).restrict scope = ρ.restrict scope := by
  funext ⟨y, hy⟩
  have hne : y ≠ x := by
    rintro rfl
    exact h hy
  simp [restrict, set, hne]

end Store

/-! ## §3 The laws of a sound domain -/

/-- The domain `d` is sound for the reading `γ` of its states: whenever an operation answers, its
answer is around every valuation that it has to account for. -/
structure Domain.Sound {σ : Type} (d : Domain σ) (γ : σ → d.scope.Valuation → Prop) : Prop where
  /-- Top is everything. -/
  top : ∀ v, γ d.top v
  /-- A state recognised as bottom is empty. -/
  isBottom : ∀ {s v}, d.isBottom s = true → ¬ γ s v
  /-- A confirmed inclusion is one. -/
  le : ∀ {a b v}, d.le a b = .ok true → γ a v → γ b v
  join_left : ∀ {a b t v}, d.join a b = .ok t → γ a v → γ t v
  join_right : ∀ {a b t v}, d.join a b = .ok t → γ b v → γ t v
  widen_left : ∀ {a b t v}, d.widen a b = .ok t → γ a v → γ t v
  widen_right : ∀ {a b t v}, d.widen a b = .ok t → γ b v → γ t v
  /-- Assignment keeps the store in which the variable has the value of the expression. -/
  assign : ∀ {s t x e n} {ρ : Store}, d.assign s x e = .ok t → γ s (ρ.restrict d.scope) →
    e.eval? ρ = some n → γ t ((ρ.set x n).restrict d.scope)
  /-- Forgetting keeps the stores in which the variable has any value. -/
  forget : ∀ {s t x} {ρ : Store}, d.forget s x = .ok t → γ s (ρ.restrict d.scope) →
    ∀ n, γ t ((ρ.set x n).restrict d.scope)
  /-- Refinement keeps the stores in which the constraint holds. -/
  constrain : ∀ {s t c} {ρ : Store}, d.constrain s c = .ok t → γ s (ρ.restrict d.scope) →
    c.Holds ρ → γ t (ρ.restrict d.scope)

/-- An answer of a guarded operation is the operation's own answer. -/
theorem FaultPlan.guard_eq_ok {α : Type} {plan : FaultPlan} {op : Operation} {applies : Bool}
    {answer : Except Fault α} {a : α} (h : plan.guard op applies answer = .ok a) :
    answer = .ok a := by
  unfold guard at h
  split at h
  · split at h
    · cases h
    · exact h
  · exact h

/-- Injected faults take answers away and change none, so a sound domain stays sound. -/
theorem Domain.Sound.withFaults {σ : Type} {d : Domain σ} {γ : σ → d.scope.Valuation → Prop}
    (hd : d.Sound γ) (plan : FaultPlan) : (d.withFaults plan).Sound γ where
  top := hd.top
  isBottom := hd.isBottom
  le h := hd.le (FaultPlan.guard_eq_ok h)
  join_left h := hd.join_left (FaultPlan.guard_eq_ok h)
  join_right h := hd.join_right (FaultPlan.guard_eq_ok h)
  widen_left h := hd.widen_left (FaultPlan.guard_eq_ok h)
  widen_right h := hd.widen_right (FaultPlan.guard_eq_ok h)
  assign h := hd.assign (FaultPlan.guard_eq_ok h)
  forget h := hd.forget (FaultPlan.guard_eq_ok h)
  constrain h := hd.constrain (FaultPlan.guard_eq_ok h)

end RangeGuard
