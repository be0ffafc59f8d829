import RangeGuard.Proofs.Analysis.Transfer
import RangeGuard.Proofs.Arith.LinearForm

/-!
# What an instruction asks of a domain

The transfer of an instruction puts at most one kind of question to a domain: an assignment, a
variable to forget, or the two sides of a comparison. Which question it is depends on the
instruction and the scope only, never on the state, and it mentions variables of the scope only.

`Query.exists_transfer_eq` is the inversion lemma of the transfer. It has six cases where the
instructions have many, with operands of two kinds in each of them. Every argument about transfers
that goes by cases on what happens to the state goes by cases on the question: that properties of
states are preserved, that transfers answer, that they are monotone. The two domains of a renaming
are the exception, since there two scopes are compared.
-/

namespace RangeGuard

/-! ## §1 Variables of expressions -/

/-- All variables of the expression are in the scope. -/
def Arith.Within (scope : Scope) (e : Arith) : Prop := ∀ x ∈ e.vars, x ∈ scope.names

/-- The expression is a constant or a variable. -/
def Arith.IsAtom : Arith → Prop
  | .const _ => True
  | .var _ => True
  | _ => False

namespace Arith

variable {scope : Scope} {a b : Arith}

theorem within_const (n : Int) : (const n).Within scope := nofun

theorem within_var {x : String} (hx : x ∈ scope.names) : (var x).Within scope := by
  intro y hy
  rw [mem_vars] at hy
  exact List.mem_singleton.mp hy ▸ hx

/-- A difference is within the scope if its parts are. -/
theorem within_sub (ha : a.Within scope) (hb : b.Within scope) : (sub a b).Within scope := by
  intro x hx
  rw [mem_vars] at hx
  rcases List.mem_append.mp hx with hx | hx
  · exact ha x (mem_vars.mpr hx)
  · exact hb x (mem_vars.mpr hx)

/-- So is every other operator. -/
theorem within_binary (op : BinOp) (ha : a.Within scope) (hb : b.Within scope) :
    (op.arith a b).Within scope := by
  -- all operators list the variables of their two arguments
  have hvars : (op.arith a b).vars = (sub a b).vars := by
    cases op <;> rfl
  rw [Within, hvars]
  exact within_sub ha hb

/-- So is the constraint of a comparison, in whichever order it takes the operands. -/
theorem within_constraint (c : Comparator) (ha : a.Within scope) (hb : b.Within scope) :
    (c.constraint a b).expr.Within scope := by
  cases c with
  | eq | ne | gt | ge => exact within_sub ha hb
  | lt | le => exact within_sub hb ha

end Arith

/-! ## §2 Queries -/

/-- What the transfer of an instruction asks of a domain. -/
inductive Query where
  /-- Nothing: the state passes. -/
  | keep
  /-- Nothing: the state passes along both edges of a branch. -/
  | fork
  /-- Nothing: no state follows. -/
  | stop
  /-- An assignment. -/
  | assign (x : String) (e : Arith)
  /-- A variable to forget. -/
  | forget (x : String)
  /-- The states in which a comparison holds and in which it fails. -/
  | compare (comparator : Comparator) (left right : Arith)

namespace Query

variable {σ : Type}

/-- The outcome that a domain gives for a question in a state. -/
def ask (d : Domain σ) (s : σ) : Query → Except Fault (Outcome σ)
  | keep => .ok (.uniform s)
  | fork => .ok (.split s s)
  | stop => .ok (.uniform d.bottom)
  | assign x e => (d.assign s x e).map .uniform
  | forget x => (d.forget s x).map .uniform
  | compare comparator left right => do
    let taken ← d.constrain s (comparator.constraint left right)
    let notTaken ← d.constrain s (comparator.negate.constraint left right)
    return .split taken notTaken

/-- The question mentions variables of the scope only, and compares constants and variables only. -/
def Within (scope : Scope) : Query → Prop
  | keep => True
  | fork => True
  | stop => True
  | assign x e => x ∈ scope.names ∧ e.Within scope
  | forget x => x ∈ scope.names
  | compare _ left right =>
    (left.IsAtom ∧ left.Within scope) ∧ (right.IsAtom ∧ right.Within scope)

/-- Whether an operand can be expressed, and how, depends on the scope only. -/
theorem operand?_cases (scope : Scope) (op : Operand) :
    (∃ e : Arith, (e.IsAtom ∧ e.Within scope) ∧
      ∀ {σ : Type} (d : Domain σ), d.scope = scope → d.operand? op = some e) ∨
    ∀ {σ : Type} (d : Domain σ), d.scope = scope → d.operand? op = none := by
  cases op with
  | const n => exact .inl ⟨.const n, ⟨trivial, Arith.within_const n⟩, fun _ _ => rfl⟩
  | var v =>
    -- the test looks at the type of the local and at the scope, not at the domain
    by_cases h : v.ty = .int ∧ v.name ∈ scope.names
    · refine .inl ⟨.var v.name, ⟨trivial, Arith.within_var h.2⟩, ?_⟩
      intro σ d hd
      exact if_pos (Domain.tracks_iff.mpr (hd ▸ h))
    · right
      intro σ d hd
      exact if_neg fun htracks => h (hd ▸ Domain.tracks_iff.mp htracks)

/-- A pair of operands is expressible in all domains over the scope or in none. -/
theorem operands_cases (scope : Scope) (left right : Operand) :
    (∃ l r : Arith, (l.IsAtom ∧ l.Within scope) ∧ (r.IsAtom ∧ r.Within scope) ∧
      ∀ {σ : Type} (d : Domain σ), d.scope = scope →
        d.operand? left = some l ∧ d.operand? right = some r) ∨
    ∀ {σ : Type} (d : Domain σ), d.scope = scope →
      d.operand? left = none ∨ d.operand? right = none := by
  rcases operand?_cases scope left with ⟨l, hl, hleft⟩ | hleft
  · rcases operand?_cases scope right with ⟨r, hr, hright⟩ | hright
    · exact .inl ⟨l, r, hl, hr, fun d hd => ⟨hleft d hd, hright d hd⟩⟩
    · exact .inr fun d hd => .inr (hright d hd)
  · exact .inr fun d hd => .inl (hleft d hd)

/-- Storing a right side in a variable of the scope is a question within the scope. -/
theorem exists_store_eq (scope : Scope) {x : String} (hx : x ∈ scope.names) (value : Rhs) :
    ∃ q : Query, q.Within scope ∧ ∀ {σ : Type} (d : Domain σ) (s : σ), d.scope = scope →
      (d.store s x value).map .uniform = q.ask d s := by
  cases value with
  | const n => exact ⟨.assign x (.const n), ⟨hx, Arith.within_const n⟩, fun _ _ _ => rfl⟩
  | ref source =>
    by_cases h : source.ty = .int ∧ source.name ∈ scope.names
    · refine ⟨.assign x (.var source.name), ⟨hx, Arith.within_var h.2⟩, ?_⟩
      intro σ d s hd
      rw [Domain.store, if_pos (Domain.tracks_iff.mpr (hd ▸ h)), ask]
    · refine ⟨.forget x, hx, ?_⟩
      intro σ d s hd
      rw [Domain.store, if_neg fun htracks => h (hd ▸ Domain.tracks_iff.mp htracks), ask]
  | binary op left right =>
    -- division by the constant zero has no result; otherwise the operands decide
    by_cases hzero : (op.isDivision && decide (right = .const 0)) = true
    · refine ⟨.stop, trivial, ?_⟩
      intro σ d s _
      rw [Domain.store, if_pos hzero]
      rfl
    · rcases operands_cases scope left right with ⟨l, r, ⟨-, hl⟩, ⟨-, hr⟩, hops⟩ | hops
      · refine ⟨.assign x (op.arith l r), ⟨hx, Arith.within_binary op hl hr⟩, ?_⟩
        intro σ d s hd
        rw [Domain.store, if_neg hzero, (hops d hd).1, (hops d hd).2, ask]
      · refine ⟨.forget x, hx, ?_⟩
        intro σ d s hd
        rw [Domain.store, if_neg hzero, ask]
        rcases hops d hd with hnone | hnone <;> rw [hnone]
        split <;> simp_all
  | call c => exact ⟨.forget x, hx, fun _ _ _ => rfl⟩
  | unmodeled description => exact ⟨.forget x, hx, fun _ _ _ => rfl⟩

/-- Every transfer is a question within the scope, and the same one in all domains over the scope.
-/
theorem exists_transfer_eq (scope : Scope) (i : Instruction) :
    ∃ q : Query, q.Within scope ∧ ∀ {σ : Type} (d : Domain σ) (s : σ), d.scope = scope →
      d.transfer s i = if d.isBottom s then .ok (.uniform s) else q.ask d s := by
  cases i with
  | assign target value =>
    cases target with
    | var v =>
      by_cases h : v.ty = .int ∧ v.name ∈ scope.names
      · obtain ⟨q, hq, hask⟩ := exists_store_eq scope h.2 value
        refine ⟨q, hq, ?_⟩
        intro σ d s hd
        rw [← hask d s hd, Domain.transfer]
        simp only [Domain.assignment, if_pos (Domain.tracks_iff.mpr (hd ▸ h))]
      · refine ⟨.keep, trivial, ?_⟩
        intro σ d s hd
        rw [Domain.transfer]
        simp only [Domain.assignment,
          if_neg fun htracks => h (hd ▸ Domain.tracks_iff.mp htracks)]
        rfl
    | field base name => exact ⟨.keep, trivial, fun _ _ _ => rfl⟩
    | element base index => exact ⟨.keep, trivial, fun _ _ _ => rfl⟩
  | branch comparator left right =>
    -- a comparison that cannot be expressed forks without a question
    rcases operands_cases scope left right with ⟨l, r, hl, hr, hops⟩ | hops
    · refine ⟨.compare comparator l r, ⟨hl, hr⟩, ?_⟩
      intro σ d s hd
      rw [Domain.transfer]
      simp only [Domain.condition, (hops d hd).1, (hops d hd).2, ask]
      cases d.constrain s (comparator.constraint l r) with
      | error fault => rfl
      | ok taken =>
        cases d.constrain s (comparator.negate.constraint l r) with
        | error fault => rfl
        | ok notTaken => rfl
    · refine ⟨.fork, trivial, ?_⟩
      intro σ d s hd
      have hcondition : d.condition s comparator left right = .ok (s, s) := by
        unfold Domain.condition
        rcases hops d hd with hnone | hnone <;> rw [hnone]
        split <;> simp_all
      rw [Domain.transfer]
      simp only [hcondition]
      rfl
  | call c => exact ⟨.keep, trivial, fun _ _ _ => rfl⟩
  | nop => exact ⟨.keep, trivial, fun _ _ _ => rfl⟩
  | goto => exact ⟨.keep, trivial, fun _ _ _ => rfl⟩
  | ret => exact ⟨.keep, trivial, fun _ _ _ => rfl⟩

end Query

end RangeGuard
