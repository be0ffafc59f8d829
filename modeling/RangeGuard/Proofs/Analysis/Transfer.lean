import RangeGuard.Analysis.Transfer
import RangeGuard.Proofs.Domain.Soundness
import RangeGuard.Semantics.Execution

/-!
# Soundness of the transfer of instructions

In a sound domain, what an instruction may do to a memory of the state before its node is accounted
for by the state on the edge that control takes. That holds for the transfer itself, where the
domain answers, and for the stand-in, where it does not.

## What a state speaks of

The reading of states sees the integers of the tracked variables only. An assignment to an integer
that is not tracked, or to a local that is not an integer, therefore changes nothing that a state
speaks of. The effects of instructions on references, fields and elements are invisible for the same
reason (`Instruction.Effect.ints_eq`).

The semantics leaves the result of a call, of a load and of an operand that is not an integer open:
any value may come out. The transfer forgets the variable in these cases, and forgetting accounts
for every value. A division by the constant zero has no result at all, and there the transfer may
answer what it likes.
-/

namespace RangeGuard

/-! ## §1 Memories -/

namespace Memory

@[simp] theorem ints_setRef (m : Memory) (x : String) (o : Option Object) :
    (m.setRef x o).ints = m.ints := rfl

private theorem ints_setInt_of_int (m : Memory) {v : Local} (h : v.ty = .int) (n : Int) :
    (m.setInt v n).ints = m.ints.set v.name n := by
  rw [setInt, if_pos h]

private theorem ints_setInt_of_ne (m : Memory) {v : Local} (h : v.ty ≠ .int) (n : Int) :
    (m.setInt v n).ints = m.ints := by
  rw [setInt, if_neg h]

end Memory

/-- Only an assignment to a local touches the integers. -/
theorem Instruction.Effect.ints_eq {n : Node} {kind : EdgeKind} {m m' : Memory} {i : Instruction}
    (h : i.Effect n kind m m') (hi : ∀ v value, i ≠ .assign (.var v) value) : m'.ints = m.ints := by
  cases i with
  | assign target value =>
    cases target with
    | var v => exact absurd rfl (hi v value)
    | field base name => rw [h.1]
    | element base index => rw [h.1]
  | branch comparator left right => rw [h.1]
  | call c =>
    simp only [Effect] at h
    split at h
    · rw [h, Memory.ints_setRef]
    · rw [h]
  | nop => exact congrArg Memory.ints h
  | goto => exact congrArg Memory.ints h
  | ret => exact False.elim h

namespace Domain

variable {σ : Type} {d : Domain σ} {γ : σ → d.scope.Valuation → Prop} {s t : σ} {ρ : Store}
  {m m' : Memory} {n : Node} {kind : EdgeKind}

/-! ## §2 Operands -/

/-- The tracked locals are the integers of the scope. -/
theorem tracks_iff {v : Local} : d.tracks v = true ↔ v.ty = .int ∧ v.name ∈ d.scope.names := by
  simp [tracks, Ty.isInt, Scope.contains]

/-- The expression of an operand has the value that the operand is read as. -/
theorem eval?_of_operand? {op : Operand} {e : Arith} {k : Int} (h : d.operand? op = some e)
    (hk : op.Reads ρ k) : e.eval? ρ = some k := by
  cases op with
  | const c =>
    obtain rfl := Option.some.inj h
    exact congrArg some hk.symm
  | var v =>
    simp only [operand?] at h
    split at h
    · rename_i htracks
      obtain rfl := Option.some.inj h
      exact congrArg some (hk (tracks_iff.mp htracks).1).symm
    · cases h

/-- The expression of an operator has the value of the operator. -/
private theorem eval?_arith {op : BinOp} {l r : Arith} {a b k : Int} (hl : l.eval? ρ = some a)
    (hr : r.eval? ρ = some b) (hk : op.result? a b = some k) : (op.arith l r).eval? ρ = some k := by
  cases op <;> simpa [BinOp.arith, Arith.eval?, hl, hr, BinOp.result?] using hk

/-! ## §3 Assignments -/

/-- Storing a right side in a tracked variable accounts for every value that it may have. -/
theorem Sound.store (hd : d.Sound γ) {x : String} {value : Rhs} {k : Int}
    (h : d.store s x value = .ok t) (hs : γ s (ρ.restrict d.scope)) (hk : value.Yields ρ k) :
    γ t ((ρ.set x k).restrict d.scope) := by
  cases value with
  | const c => exact hd.assign h hs (congrArg some hk.symm)
  | ref source =>
    simp only [Domain.store] at h
    split at h
    · rename_i htracks
      exact hd.assign h hs (congrArg some (hk (tracks_iff.mp htracks).1).symm)
    · -- a source that is not tracked may have any value, and forgetting allows any
      exact hd.forget h hs k
  | binary op left right =>
    obtain ⟨a, b, ha, hb, hresult⟩ := hk
    simp only [Domain.store] at h
    split at h
    · -- a division by the constant zero yields nothing
      rename_i hzero
      simp only [Bool.and_eq_true, decide_eq_true_eq] at hzero
      obtain ⟨hdiv, rfl⟩ := hzero
      obtain rfl : b = 0 := hb
      cases op <;> simp [BinOp.isDivision, BinOp.result?] at hdiv hresult
    · split at h
      · rename_i l r hl hr
        exact hd.assign h hs
          (eval?_arith (eval?_of_operand? hl ha) (eval?_of_operand? hr hb) hresult)
      · exact hd.forget h hs k
  | call c => exact hd.forget h hs k
  | unmodeled description => exact hd.forget h hs k

/-- An assignment to a local that is not tracked is not seen in the scope. -/
theorem restrict_setInt_of_not_tracks {v : Local} (h : ¬ d.tracks v = true) (k : Int) :
    (m.setInt v k).ints.restrict d.scope = m.ints.restrict d.scope := by
  by_cases hint : v.ty = .int
  · rw [Memory.ints_setInt_of_int m hint]
    exact Store.restrict_set_of_not_mem (fun hmem => h (tracks_iff.mpr ⟨hint, hmem⟩)) _ _
  · rw [Memory.ints_setInt_of_ne m hint]

/-- An assignment to any place is accounted for. -/
theorem Sound.assignment (hd : d.Sound γ) {target : Place} {value : Rhs}
    (h : d.assignment s target value = .ok t) (hs : γ s (m.ints.restrict d.scope))
    (he : (Instruction.assign target value).Effect n kind m m') :
    γ t (m'.ints.restrict d.scope) := by
  cases target with
  | var v =>
    obtain ⟨k, o, hyields, -, rfl⟩ := he
    rw [Memory.ints_setRef]
    simp only [Domain.assignment] at h
    split at h
    · rename_i htracks
      rw [Memory.ints_setInt_of_int m (tracks_iff.mp htracks).1]
      exact hd.store h hs hyields
    · rename_i htracks
      obtain rfl := Except.ok.inj h
      -- the state is passed on, and the valuation of the scope has not changed
      rwa [restrict_setInt_of_not_tracks htracks]
  | field base name =>
    obtain rfl := Except.ok.inj h
    rwa [he.1]
  | element base index =>
    obtain rfl := Except.ok.inj h
    rwa [he.1]

/-! ## §4 Comparisons -/

/-- The opposite comparison holds where the comparison fails. -/
theorem negate_holds {c : Comparator} {a b : Int} : c.negate.Holds a b ↔ ¬ c.Holds a b := by
  cases c <;> simp [Comparator.negate, Comparator.Holds]

/-- The constraint of a comparison holds where the comparison does. -/
theorem constraint_holds {c : Comparator} {l r : Arith} {a b : Int} (hl : l.eval? ρ = some a)
    (hr : r.eval? ρ = some b) (h : c.Holds a b) : (c.constraint l r).Holds ρ := by
  cases c <;> simp only [Comparator.Holds] at h <;>
    simp only [Comparator.constraint, Constraint.Holds, Arith.eval?, hl, hr, Relation.Holds] <;>
    refine ⟨_, rfl, ?_⟩ <;> omega

/-- The state on each side of a comparison accounts for the stores that take that side. -/
theorem Sound.condition (hd : d.Sound γ) {comparator : Comparator} {left right : Operand}
    {a b : Int} {states : σ × σ} (h : d.condition s comparator left right = .ok states)
    (hs : γ s (ρ.restrict d.scope)) (ha : left.Reads ρ a) (hb : right.Reads ρ b) :
    (comparator.Holds a b → γ states.1 (ρ.restrict d.scope)) ∧
      (¬ comparator.Holds a b → γ states.2 (ρ.restrict d.scope)) := by
  simp only [Domain.condition] at h
  split at h
  · rename_i l r hl hr
    obtain ⟨taken, htaken, h⟩ := bind_eq_ok_iff.mp h
    obtain ⟨notTaken, hnot, h⟩ := bind_eq_ok_iff.mp h
    obtain rfl := Except.ok.inj h
    have hl' := eval?_of_operand? hl ha
    have hr' := eval?_of_operand? hr hb
    exact ⟨fun hholds => hd.constrain htaken hs (constraint_holds hl' hr' hholds),
      fun hfails => hd.constrain hnot hs (constraint_holds hl' hr' (negate_holds.mpr hfails))⟩
  · -- a comparison that cannot be expressed leaves the state on both sides
    obtain rfl := Except.ok.inj h
    exact ⟨fun _ => hs, fun _ => hs⟩

/-! ## §5 Instructions -/

/-- The outcome of an instruction accounts for everything that it may do on the edge that is taken.
-/
theorem Sound.transfer (hd : d.Sound γ) {i : Instruction} {o : Outcome σ}
    (h : d.transfer s i = .ok o) (hs : γ s (m.ints.restrict d.scope)) (he : i.Effect n kind m m') :
    γ (o.along kind) (m'.ints.restrict d.scope) := by
  unfold Domain.transfer at h
  split at h
  · -- bottom has no store, so no run is here
    rename_i hbottom
    exact absurd hs (hd.isBottom hbottom)
  · split at h
    · obtain ⟨t, ht, rfl⟩ := map_eq_ok_iff.mp h
      exact hd.assignment ht hs he
    · obtain ⟨states, hstates, rfl⟩ := map_eq_ok_iff.mp h
      -- the effect of a branch says which edge is taken, by the comparison
      obtain ⟨rfl, a, b, ha, hb, hkind⟩ := he
      obtain ⟨htaken, hnot⟩ := hd.condition hstates hs ha hb
      cases kind with
      | branch => exact htaken (hkind.mpr rfl)
      | fall => exact hnot (fun hholds => nomatch hkind.mp hholds)
    · rename_i hassign hbranch
      obtain rfl := Except.ok.inj h
      rw [he.ints_eq fun v value => hassign _ _]
      exact hs

/-- The stand-in for a failed transfer accounts for everything as well. -/
theorem Sound.fallback (hd : d.Sound γ) {i : Instruction} (hs : γ s (m.ints.restrict d.scope))
    (he : i.Effect n kind m m') :
    γ ((d.fallback s i).along kind) (m'.ints.restrict d.scope) := by
  unfold Domain.fallback
  split
  · rename_i v value
    obtain ⟨k, o, -, -, rfl⟩ := he
    rw [Memory.ints_setRef]
    split
    · rename_i htracks
      rw [Memory.ints_setInt_of_int m (tracks_iff.mp htracks).1]
      -- forgetting may fail as well, and top takes its place
      split
      · rename_i forgotten hforget
        exact hd.forget hforget hs k
      · exact hd.top _
    · rename_i htracks
      rw [restrict_setInt_of_not_tracks htracks]
      exact hs
  · rw [he.ints_eq fun v value => nofun]
    cases kind <;> exact hs
  · rename_i hassign hbranch
    rw [he.ints_eq hassign]
    exact hs

end Domain

end RangeGuard
