import RangeGuard.Proofs.Box.Guarded
import RangeGuard.Proofs.Box.Lattice

/-!
# When operations on boxes fail

The operations on boxes have two faults. A name that is not in the scope is the fault of the
operations that take names, and it comes first: the target of an assignment before the variables of
the expression, and these from left to right. A box with a wrong number of components is the fault
of every operation, and of two such boxes the first is reported.

`Box.firstFault` computes the fault from the names and the boxes alone, in this order. The file
shows that each operation fails with exactly this fault, by following the sequence of its steps: the
fault of a sequence is the fault of its first step or, failing that, of the rest (`fault?_bind`).
Apart from these faults every operation answers, on boxes with any components whatsoever, without
reading a component that is not there or dividing by zero; and well-formed boxes give well-formed
boxes.

This file complements the one on guarded operations, which shows that the guards against missing
components and division by zero never act.
-/

namespace RangeGuard

/-! ## §1 Faults of answers -/

/-- The fault of an answer that has failed. -/
def fault? {α : Type} : Except Fault α → Option Fault
  | .error fault => some fault
  | .ok _ => none

section

variable {α β : Type} {x : Except Fault α} {f : α → Except Fault β} {o : Option Fault}

private theorem fault?_eq_some_iff {fault : Fault} : fault? x = some fault ↔ x = .error fault := by
  cases x <;> simp [fault?]

/-- In a sequence of operations the first one that fails decides. -/
theorem fault?_bind (h : ∀ a, x = .ok a → fault? (f a) = o) :
    fault? (x >>= f) = (fault? x).or o := by
  cases x with
  | error fault => rfl
  | ok a => exact h a rfl

/-- Operations that do not fail after the first one leave the fault to it. -/
theorem fault?_bind_of_ok (h : ∀ a, x = .ok a → fault? (f a) = none) :
    fault? (x >>= f) = fault? x := by
  rw [fault?_bind h, Option.or_none]

end

/-- Keeping each variable once does not change which one is found first. -/
theorem Arith.find?_vars (p : String → Bool) (e : Arith) :
    e.vars.find? p = e.occurrences.find? p := by
  have hfold : ∀ (xs seen : List String),
      (xs.foldl (fun seen y => if y ∈ seen then seen else seen ++ [y]) seen).find? p =
        (seen ++ xs).find? p := by
    intro xs
    induction xs with
    | nil => simp
    | cons y ys ih =>
      intro seen
      rw [List.foldl_cons, ih]
      split
      · -- a name that was seen before is found at its first place or not at all
        rename_i hy
        rw [List.find?_append, List.find?_append, List.find?_cons]
        cases hseen : seen.find? p with
        | some z => rfl
        | none => simp [List.find?_eq_none.mp hseen y hy]
      · simp
  exact hfold e.occurrences []

namespace Box

variable {scope : Scope} {a b t : Box} {x : String} {e : Arith} {c : Constraint}

/-! ## §2 The fault of names and boxes -/

/-- The fault of the first name that is not in the scope. -/
def unknown? (scope : Scope) (names : List String) : Option Fault :=
  (names.find? fun x => !scope.contains x).map .unknownVariable

/-- The fault of a box with a wrong number of components. -/
def mismatch? (scope : Scope) : Box → Option Fault
  | bottom => none
  | reachable cs =>
    if cs.length = scope.size then none else some (.dimensionMismatch scope.size cs.length)

/-- The fault that names and boxes give rise to: the first name that is not in the scope or, if
there is none, the first box with a wrong number of components. -/
def firstFault (scope : Scope) (names : List String) (boxes : List Box) : Option Fault :=
  (unknown? scope names).or (boxes.findSome? (mismatch? scope))

private theorem unknown?_cons (x : String) (names : List String) :
    unknown? scope (x :: names) = (unknown? scope [x]).or (unknown? scope names) := by
  cases hx : scope.contains x <;> simp [unknown?, hx]

private theorem findSome?_mismatch (scope : Scope) (b : Box) :
    [b].findSome? (mismatch? scope) = mismatch? scope b := by
  cases h : mismatch? scope b <;> simp [h]

/-! ## §3 The fault of each operation -/

/-- Reading the components of a box fails on a wrong number of them. -/
private theorem fault?_components? (scope : Scope) (b : Box) :
    fault? (components? scope b) = mismatch? scope b := by
  cases b with
  | bottom => rfl
  | reachable cs =>
    by_cases hlen : cs.length = scope.size <;> simp [components?, mismatch?, hlen, fault?]

/-- Looking up a name fails if the scope does not have it. -/
private theorem fault?_position (scope : Scope) (x : String) :
    fault? (position scope x) = unknown? scope [x] := by
  by_cases hx : x ∈ scope.names
  · obtain ⟨k, hk⟩ := Scope.exists_position hx
    simp [position, hk, fault?, unknown?, Scope.contains, hx]
  · simp [position, Scope.position?_eq_none_iff.mpr hx, fault?, unknown?, Scope.contains, hx]

/-- The check of an expression reports its first unknown variable, from left to right. -/
private theorem fault?_checkVariables (scope : Scope) (e : Arith) :
    fault? (checkVariables scope e) = unknown? scope e.occurrences := by
  rw [checkVariables, Arith.find?_vars, unknown?]
  cases e.occurrences.find? fun x => !scope.contains x <;> rfl

/-- Operations on two boxes look at the first box, then at the second one. -/
theorem fault?_binary {α : Type} {f : Option (List Interval) → Option (List Interval) →
      Except Fault α}
    (hf : ∀ o o', fault? (f o o') = none) (a b : Box) :
    fault? (do f (← components? scope a) (← components? scope b)) = firstFault scope [] [a, b] := by
  -- after the first box has been read, only the second one can fail
  have hsecond : ∀ o, fault? (components? scope b >>= f o) = mismatch? scope b := by
    intro o
    rw [fault?_bind_of_ok fun o' _ => hf o o', fault?_components?]
  rw [fault?_bind fun o _ => hsecond o, fault?_components?]
  cases h : mismatch? scope a <;> simp [firstFault, unknown?, h]

private theorem fault?_pointwise (f : Interval → Interval → Interval) (a b : Box) :
    fault? (pointwise scope f a b) = firstFault scope [] [a, b] := by
  apply fault?_binary
  rintro (- | cs) (- | ds) <;> rfl

private theorem fault?_meet (a b : Box) : fault? (meet scope a b) = firstFault scope [] [a, b] := by
  apply fault?_binary
  rintro (- | cs) (- | ds) <;> rfl

private theorem fault?_le (a b : Box) : fault? (le scope a b) = firstFault scope [] [a, b] := by
  apply fault?_binary
  rintro (- | cs) (- | ds) <;> rfl

/-- Operations on one box look at their names, then at the box. -/
theorem fault?_unary {α β : Type} {names : List String} {check : Except Fault β}
    {f : β → Option (List Interval) → Except Fault α} (hcheck : fault? check = unknown? scope names)
    (hf : ∀ k o, fault? (f k o) = none) (b : Box) :
    fault? (do f (← check) (← components? scope b)) = firstFault scope names [b] := by
  -- after the names have been checked, only the box can fail
  have hrest : ∀ k, fault? (components? scope b >>= f k) = mismatch? scope b := by
    intro k
    rw [fault?_bind_of_ok fun o _ => hf k o, fault?_components?]
  rw [fault?_bind fun k _ => hrest k, hcheck, firstFault, findSome?_mismatch]

/-- Assignment reports the target first, then the expression, then the box. -/
private theorem fault?_assign (b : Box) (x : String) (e : Arith) :
    fault? (assign scope b x e) = firstFault scope (x :: e.occurrences) [b] := by
  -- the target is looked up before the variables of the expression, and these before the box
  rw [firstFault, unknown?_cons, Option.or_assoc, ← fault?_position]
  apply fault?_bind
  intro k _
  apply fault?_unary (fault?_checkVariables scope e)
  rintro - (- | cs) <;> rfl

private theorem fault?_forget (b : Box) (x : String) :
    fault? (forget scope b x) = firstFault scope [x] [b] := by
  apply fault?_unary (fault?_position scope x)
  rintro k (- | cs) <;> rfl

private theorem fault?_bound (b : Box) (e : Arith) :
    fault? (bound scope b e) = firstFault scope e.occurrences [b] := by
  apply fault?_unary (fault?_checkVariables scope e)
  rintro - (- | cs) <;> rfl

/-- A test fails where the bound of its expression does. -/
private theorem fault?_satisfies (b : Box) (c : Constraint) :
    fault? (satisfies scope b c) = firstFault scope c.expr.occurrences [b] := by
  rw [satisfies, fault?_bind_of_ok, fault?_bound]
  intro value _
  -- whatever the bound is, the comparison with the region answers
  split
  · rfl
  · cases region? c.relation <;> rfl

private theorem fault?_constrain (b : Box) (c : Constraint) :
    fault? (constrain scope b c) = firstFault scope c.expr.occurrences [b] := by
  apply fault?_unary (fault?_checkVariables scope c.expr)
  rintro - (- | cs)
  · rfl
  · simp only
    cases refine? scope cs c <;> rfl

/-! ## §4 All operations -/

/-- The answer fails with the given fault and with no other; without one it does not fail. -/
def FailsExactly {α : Type} (answer : Except Fault α) (fault : Option Fault) : Prop :=
  ∀ g, answer = .error g ↔ fault = some g

private theorem failsExactly_of_fault? {α : Type} {answer : Except Fault α} {fault : Option Fault}
    (h : fault? answer = fault) : FailsExactly answer fault := by
  intro g
  rw [← h, fault?_eq_some_iff]

/-- On any boxes, an operation fails exactly with the first fault of its names and boxes, and never
reads a component that is not there or divides by zero; well-formed boxes give well-formed boxes. -/
theorem operations_fail_exactly (scope : Scope) :
    (∀ a b : Box,
      FailsExactly (join scope a b) (firstFault scope [] [a, b]) ∧
      FailsExactly (meet scope a b) (firstFault scope [] [a, b]) ∧
      FailsExactly (widen scope a b) (firstFault scope [] [a, b]) ∧
      FailsExactly (le scope a b) (firstFault scope [] [a, b])) ∧
    (∀ (b : Box) (x : String) (e : Arith) (c : Constraint),
      FailsExactly (assign scope b x e) (firstFault scope (x :: e.occurrences) [b]) ∧
      FailsExactly (forget scope b x) (firstFault scope [x] [b]) ∧
      FailsExactly (bound scope b e) (firstFault scope e.occurrences [b]) ∧
      FailsExactly (satisfies scope b c) (firstFault scope c.expr.occurrences [b]) ∧
      FailsExactly (constrain scope b c) (firstFault scope c.expr.occurrences [b])) ∧
    (∀ (b : Box) (x : String) (e : Arith) (c : Constraint),
      Guarded.assign scope b x e = some (assign scope b x e) ∧
      Guarded.forget scope b x = some (forget scope b x) ∧
      Guarded.bound scope b e = some (bound scope b e) ∧
      Guarded.satisfies scope b c = some (satisfies scope b c) ∧
      Guarded.constrain scope b c = some (constrain scope b c)) ∧
    (∀ a b t : Box, WellFormed scope a → WellFormed scope b →
      .ok t ∈ [join scope a b, meet scope a b, widen scope a b] → WellFormed scope t) ∧
    (∀ (b t : Box) (x : String) (e : Arith) (c : Constraint), WellFormed scope b →
      .ok t ∈ [assign scope b x e, forget scope b x, constrain scope b c] →
        WellFormed scope t) := by
  refine ⟨fun a b => ?_, fun b x e c => ?_, fun b x e c => ?_, ?_, ?_⟩
  · exact ⟨failsExactly_of_fault? (fault?_pointwise _ a b),
      failsExactly_of_fault? (fault?_meet a b),
      failsExactly_of_fault? (fault?_pointwise _ a b), failsExactly_of_fault? (fault?_le a b)⟩
  · exact ⟨failsExactly_of_fault? (fault?_assign b x e), failsExactly_of_fault? (fault?_forget b x),
      failsExactly_of_fault? (fault?_bound b e), failsExactly_of_fault? (fault?_satisfies b c),
      failsExactly_of_fault? (fault?_constrain b c)⟩
  · exact ⟨Guarded.assign_eq .., Guarded.forget_eq .., Guarded.bound_eq .., Guarded.satisfies_eq ..,
      Guarded.constrain_eq ..⟩
  · intro a b t ha hb ht
    simp only [List.mem_cons, List.not_mem_nil, or_false] at ht
    rcases ht with ht | ht | ht
    · exact (preserves_wellFormed scope).join ha hb ht.symm
    · exact wellFormed_meet ha hb ht.symm
    · exact (preserves_wellFormed scope).widen ha hb ht.symm
  · intro b t x e c hb ht
    simp only [List.mem_cons, List.not_mem_nil, or_false] at ht
    rcases ht with ht | ht | ht
    · exact (preserves_wellFormed scope).assign hb ht.symm
    · exact (preserves_wellFormed scope).forget hb ht.symm
    · exact (preserves_wellFormed scope).constrain hb ht.symm

/-- Of an unknown divisor and a second interval in a scope of one variable the divisor is reported;
a well-formed box is refined to a well-formed one. -/
theorem operations_fail_exactly_unknown_divisor :
    assign (Scope.ofNames ["x"]) (reachable [.full, .empty]) "x" (.div (.var "x") (.var "y")) =
      .error (.unknownVariable "y") ∧
    constrain (Scope.ofNames ["x"]) (reachable [.full, .empty]) ⟨.var "x", .ge⟩ =
      .error (.dimensionMismatch 1 2) ∧
    WellFormed (Scope.ofNames ["x"]) (reachable [⟨.finite 0, .finite 9⟩]) ∧
    constrain (Scope.ofNames ["x"]) (reachable [⟨.finite 0, .finite 9⟩])
      ⟨.sub (.const 7) (.mul (.const 2) (.var "x")), .ge⟩ =
        .ok (reachable [⟨.finite 0, .finite 3⟩]) ∧
    WellFormed (Scope.ofNames ["x"]) (reachable [⟨.finite 0, .finite 3⟩]) := by
  obtain ⟨-, hfaults, -, -, hwellFormed⟩ := operations_fail_exactly (Scope.ofNames ["x"])
  have hbefore : WellFormed (Scope.ofNames ["x"]) (reachable [⟨.finite 0, .finite 9⟩]) := by
    unfold WellFormed
    decide
  have hafter : constrain (Scope.ofNames ["x"]) (reachable [⟨.finite 0, .finite 9⟩])
      ⟨.sub (.const 7) (.mul (.const 2) (.var "x")), .ge⟩ =
        .ok (reachable [⟨.finite 0, .finite 3⟩]) := by
    decide
  obtain ⟨hassign, -, -, -, hconstrain⟩ := hfaults (reachable [.full, .empty]) "x"
    (.div (.var "x") (.var "y")) ⟨.var "x", .ge⟩
  refine ⟨(hassign _).mpr (by decide), (hconstrain _).mpr (by decide), hbefore, hafter, ?_⟩
  apply hwellFormed _ _ "x" (.const 0) _ hbefore
  rw [hafter]
  simp

end Box

end RangeGuard
