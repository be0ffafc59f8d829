import RangeGuard.Proofs.Analysis.Answers
import RangeGuard.Proofs.Interval.Monotone

/-!
# Guarded operations on boxes

Two kinds of steps of the operations have no answer by themselves: reading or replacing a component
at a position that the list does not have, and dividing by zero. The operations proper are total and
give some value there. Here every such step is guarded. It gives `none` where it would go wrong, and
then the whole operation does.

None of the guards ever acts, whatever the box and the ends of its components are:

- positions are positions of names of the scope, and the number of components has been compared with
  the size of the scope;
- the parts of a divisor have ends on one side of zero;
- the coefficients that are divided by stand in a linear form, which keeps no zero coefficient.

The first half of the file (§1 to §4) writes the operations down a second time, with guards. The
second half (§5 to §8) shows for one layer after the other that the guarded version answers, and
with the answer of the unguarded one. Folds are compared by `foldlM_eq_some`, which carries an
invariant: the steps of a refinement answer only as long as the list has the right length.
-/

namespace RangeGuard

namespace Guarded

/-! ## §1 Quotients -/

/-- The quotient of two ends, unless the divisor is zero. -/
def quotient (a b : Bound) : Option Bound := if b = .finite 0 then none else some (a.tdiv b)

/-- All quotients by the members of a divisor whose ends are not zero. -/
def quotientHull (a part : Interval) : Option Interval := do
  let p ← quotient a.low part.low
  let q ← quotient a.low part.high
  let r ← quotient a.high part.low
  let s ← quotient a.high part.high
  return .hull p q r s

/-- All quotients of a member of `a` by a nonzero member of `b`. -/
def tdiv (a b : Interval) : Option Interval :=
  if a.isEmpty then some .empty
  else b.nonzeroParts.foldlM (fun acc part => (quotientHull a part).map acc.join) .empty

/-- The integers that a factor takes into an interval, unless a factor of zero would be divided by.
-/
def divExact (i : Interval) (k : Int) : Option Interval :=
  if i.isEmpty then some .empty
  else if k = 0 then none
  else some (i.divExact k)

/-! ## §2 Components -/

/-- The component of a variable, if the list has one at its position. -/
def lookup (scope : Scope) (cs : List Interval) (x : String) : Option Interval := do
  let k ← scope.position? x
  cs[k]?

/-- Replaces the component of a variable, if the list has one at its position. -/
def update (scope : Scope) (cs : List Interval) (x : String) (i : Interval) :
    Option (List Interval) := do
  let k ← scope.position? x
  if k < cs.length then some (cs.set k i) else none

/-- The range of an expression. -/
def range (ρ : String → Option Interval) : Arith → Option Interval
  | .var x => ρ x
  | .const n => some (.point n)
  | .add a b => return (← range ρ a) + (← range ρ b)
  | .sub a b => return (← range ρ a) - (← range ρ b)
  | .mul a b => return (← range ρ a) * (← range ρ b)
  | .div a b => do tdiv (← range ρ a) (← range ρ b)
  | .rem a b => return (← range ρ a).tmod (← range ρ b)
  | .neg a => return -(← range ρ a)

/-! ## §3 Refinement -/

/-- The range of a linear form without the term of `skip`. -/
def restRange (scope : Scope) (cs : List Interval) (f : LinearForm) (skip : String) :
    Option Interval :=
  f.terms.foldlM
    (fun rest term =>
      if term.1 = skip then some rest
      else (lookup scope cs term.1).map fun i => rest + Interval.point term.2 * i)
    (.point f.constant)

/-- Tightens the variable of one term. -/
def tightenTerm (scope : Scope) (f : LinearForm) (region : Interval) (cs : List Interval)
    (term : String × Int) : Option (List Interval) := do
  let rest ← restRange scope cs f term.1
  let solved ← divExact (region - rest) term.2
  let current ← lookup scope cs term.1
  update scope cs term.1 (current.meet solved)

/-- Two rounds over all terms. -/
def tighten (scope : Scope) (f : LinearForm) (region : Interval) (cs : List Interval) :
    Option (List Interval) := do
  let once ← f.terms.foldlM (tightenTerm scope f region) cs
  f.terms.foldlM (tightenTerm scope f region) once

/-- Removes from one variable the value at which the form would be zero. -/
def excludeTerm (scope : Scope) (f : LinearForm) (cs : List Interval) (term : String × Int) :
    Option (List Interval) := do
  match (← restRange scope cs f term.1).constant? with
  | none => some cs
  | some rest =>
    if term.2 = 0 then none
    else if (-rest).tmod term.2 = 0 then
      let current ← lookup scope cs term.1
      update scope cs term.1 (Box.trimEnd current ((-rest).tdiv term.2))
    else some cs

/-- Removes the zero of the form from each variable in turn. -/
def exclude (scope : Scope) (f : LinearForm) (cs : List Interval) : Option (List Interval) :=
  f.terms.foldlM (excludeTerm scope f) cs

/-- The components refined by a constraint; `some none` if no value of the expression satisfies it.
-/
def refine (scope : Scope) (cs : List Interval) (c : Constraint) :
    Option (Option (List Interval)) := do
  let value ← range (lookup scope cs) c.expr
  match Box.region? c.relation with
  | some region =>
    if (value.meet region).isEmpty then some none
    else match c.expr.linear? with
      | some f => (tighten scope f region cs).map some
      | none => some (some cs)
  | none =>
    if value = .point 0 then some none
    else match c.expr.linear? with
      | some f => (exclude scope f cs).map some
      | none => some (some cs)

/-! ## §4 Operations -/

/-- Goes on with the components of a box once they have been checked. -/
def withComponents {α : Type} (checked : Except Fault (Option (List Interval))) (bottom : α)
    (go : List Interval → Option α) : Option (Except Fault α) :=
  match checked with
  | .error fault => some (.error fault)
  | .ok none => some (.ok bottom)
  | .ok (some cs) => (go cs).map .ok

/-- Stores the range of `e` in the component of `x`. -/
def assign (scope : Scope) (b : Box) (x : String) (e : Arith) : Option (Except Fault Box) :=
  withComponents (do
      let _ ← Box.position scope x
      Box.checkVariables scope e
      Box.components? scope b)
    .bottom fun cs => do
      let value ← range (lookup scope cs) e
      (update scope cs x value).map .ofComponents

/-- Drops all knowledge of `x`. -/
def forget (scope : Scope) (b : Box) (x : String) : Option (Except Fault Box) :=
  withComponents (do
      let _ ← Box.position scope x
      Box.components? scope b)
    .bottom fun cs => (update scope cs x .full).map .reachable

/-- The range of an expression in a box. -/
def bound (scope : Scope) (b : Box) (e : Arith) : Option (Except Fault Interval) :=
  withComponents (do
      Box.checkVariables scope e
      Box.components? scope b)
    .empty fun cs => range (lookup scope cs) e

/-- The constraint holds for every value in the range of its expression. -/
def satisfies (scope : Scope) (b : Box) (c : Constraint) : Option (Except Fault Bool) := do
  match ← bound scope b c.expr with
  | .error fault => some (.error fault)
  | .ok value =>
    if value.isEmpty then some (.ok true)
    else match Box.region? c.relation with
      | some region => some (.ok (decide (value ≤ region)))
      | none => some (.ok (!decide ((0 : Int) ∈ value)))

/-- A box around the stores of `b` in which the constraint holds. -/
def constrain (scope : Scope) (b : Box) (c : Constraint) : Option (Except Fault Box) :=
  withComponents (do
      Box.checkVariables scope c.expr
      Box.components? scope b)
    .bottom fun cs => (refine scope cs c).map (·.elim .bottom .ofComponents)

/-! ## §5 The guards of quotients -/

variable {scope : Scope} {b : Box} {cs : List Interval} {f : LinearForm} {region : Interval}
  {x : String} {e : Arith} {c : Constraint}

/-- A fold whose steps all answer is the fold of their answers. The steps need to answer only where
an invariant of the fold holds. -/
theorem foldlM_eq_some {α β : Type} {step : β → α → Option β} {answer : β → α → β} (P : β → Prop)
    {l : List α} {init : β} (hinit : P init)
    (hstep : ∀ a ∈ l, ∀ acc, P acc → step acc a = some (answer acc a) ∧ P (answer acc a)) :
    l.foldlM step init = some (l.foldl answer init) ∧ P (l.foldl answer init) := by
  induction l generalizing init with
  | nil => exact ⟨rfl, hinit⟩
  | cons a l ih =>
    obtain ⟨hfirst, hrest⟩ := List.forall_mem_cons.mp hstep
    obtain ⟨hanswer, hnext⟩ := hfirst init hinit
    rw [List.foldlM_cons, hanswer, List.foldl_cons]
    -- the invariant holds for the next accumulator, so the induction hypothesis applies to it
    exact ih hnext hrest

private theorem quotient_eq {a d : Bound} (hd : d ≠ .finite 0) :
    quotient a d = some (a.tdiv d) := if_neg hd

/-- The ends of a part of a divisor lie on one side of zero. -/
theorem quotientHull_eq (a : Interval) {d part : Interval} (h : part ∈ d.nonzeroParts) :
    quotientHull a part = some (a.quotientHull part) := by
  have hordered := Interval.isEmpty_eq_false_iff.mp (Interval.of_mem_nonzeroParts h).1
  -- the end that is farther from zero is nonzero because the ends are in order
  have hlow : part.low ≠ .finite 0 := by
    intro hzero
    rcases Interval.side_of_mem_nonzeroParts h with hneg | hpos
    · have hle := hordered.trans hneg
      rw [hzero] at hle
      cases hle
    · rw [hzero] at hpos
      cases hpos
  have hhigh : part.high ≠ .finite 0 := by
    intro hzero
    rcases Interval.side_of_mem_nonzeroParts h with hneg | hpos
    · rw [hzero] at hneg
      cases hneg
    · have hle := hpos.trans hordered
      rw [hzero] at hle
      cases hle
  rw [quotientHull, quotient_eq hlow, quotient_eq hhigh, quotient_eq hlow, quotient_eq hhigh]
  rfl

/-- No end of a divisor is ever zero where it is divided by, for any intervals. -/
theorem tdiv_eq (a d : Interval) : tdiv a d = some (a.tdiv d) := by
  unfold tdiv Interval.tdiv
  split
  · rfl
  · refine (foldlM_eq_some (fun _ => True) trivial fun part hpart acc _ => ⟨?_, trivial⟩).1
    rw [quotientHull_eq a hpart]
    rfl

/-- A factor other than zero may be divided by. -/
private theorem divExact_eq (i : Interval) {k : Int} (hk : k ≠ 0) :
    divExact i k = some (i.divExact k) := by
  unfold divExact
  split
  · rename_i hempty
    rw [Interval.divExact, if_pos hempty]
  · rfl

/-! ## §6 The guards of components -/

/-- A name of the scope has a component in a list of the right length. -/
theorem lookup_eq (hlen : cs.length = scope.size) (hx : x ∈ scope.names) :
    lookup scope cs x = some (Box.lookup scope cs x) := by
  obtain ⟨k, hk⟩ := Scope.exists_position hx
  have hlt : k < cs.length := hlen ▸ Scope.position_lt hk
  rw [lookup, hk, Box.lookup_of_position hk, List.getD_eq_getElem _ _ hlt]
  exact List.getElem?_eq_getElem hlt

private theorem update_eq (hlen : cs.length = scope.size) (hx : x ∈ scope.names) (i : Interval) :
    update scope cs x i = some (Box.update scope cs x i) := by
  obtain ⟨k, hk⟩ := Scope.exists_position hx
  rw [update, Box.update, hk]
  exact if_pos (hlen ▸ Scope.position_lt hk)

/-- The range of an expression all of whose variables have a component. -/
theorem range_eq {ρ : String → Option Interval} {ρ' : String → Interval}
    (h : ∀ x ∈ e.occurrences, ρ x = some (ρ' x)) : range ρ e = some (e.range ρ') := by
  induction e with
  | var x => exact h x (List.mem_singleton_self x)
  | const n => rfl
  | add a b iha ihb | sub a b iha ihb | mul a b iha ihb | rem a b iha ihb =>
    obtain ⟨ha, hb⟩ := List.forall_mem_append.mp h
    rw [range, iha ha, ihb hb]
    rfl
  | div a b iha ihb =>
    -- the only operation with a guard of its own
    obtain ⟨ha, hb⟩ := List.forall_mem_append.mp h
    rw [range, iha ha, ihb hb]
    exact tdiv_eq _ _
  | neg a iha =>
    rw [range, iha h]
    rfl

/-- The range of an expression within the scope reads no component that is not there. -/
private theorem range_lookup_eq (hlen : cs.length = scope.size) (he : e.Within scope) :
    range (lookup scope cs) e = some (e.range (Box.lookup scope cs)) :=
  range_eq fun x hx => lookup_eq hlen (he x (Arith.mem_vars.mpr hx))

/-! ## §7 The guards of a refinement -/

/-- All that the guards of a refinement look at: the variables of the form are in the scope, and no
coefficient is zero. -/
structure Solvable (scope : Scope) (f : LinearForm) : Prop where
  names : ∀ term ∈ f.terms, term.1 ∈ scope.names
  nonzero : ∀ term ∈ f.terms, term.2 ≠ 0

/-- The linear form of an expression within the scope passes all guards. -/
private theorem solvable_of_linear? (he : e.Within scope) (hlinear : e.linear? = some f) :
    Solvable scope f where
  names _ hterm := he _ (Arith.name_mem_vars hlinear hterm)
  nonzero _ hterm := (Arith.normal_of_linear? hlinear).nonzero _ hterm

private theorem restRange_eq (hf : Solvable scope f) (hlen : cs.length = scope.size)
    (skip : String) :
    restRange scope cs f skip = some (Box.restRange scope cs f skip) := by
  refine (foldlM_eq_some (fun _ => True) trivial fun term hterm acc _ => ⟨?_, trivial⟩).1
  split
  · rfl
  · rw [lookup_eq hlen (hf.names term hterm)]
    rfl

/-- Solving for a variable divides by its coefficient and replaces its component. -/
private theorem tightenTerm_eq (hf : Solvable scope f) (hlen : cs.length = scope.size)
    {term : String × Int} (hterm : term ∈ f.terms) :
    tightenTerm scope f region cs term = some (Box.tightenTerm scope f region cs term) := by
  have hname := hf.names term hterm
  rw [tightenTerm, restRange_eq hf hlen, lookup_eq hlen hname]
  simp only [Option.bind_eq_bind, Option.bind_some, divExact_eq _ (hf.nonzero term hterm),
    update_eq hlen hname]
  rfl

private theorem tighten_eq (hf : Solvable scope f) (hlen : cs.length = scope.size) :
    tighten scope f region cs = some (Box.tighten scope f region cs) := by
  -- the second round starts from a list of the same length
  have hround : ∀ cs : List Interval, cs.length = scope.size →
      f.terms.foldlM (tightenTerm scope f region) cs = some (Box.tightenRound scope f region cs) ∧
        (Box.tightenRound scope f region cs).length = scope.size := by
    intro cs hlen
    refine foldlM_eq_some (fun cs : List Interval => cs.length = scope.size) hlen
      fun term hterm cs hlen => ?_
    exact ⟨tightenTerm_eq hf hlen hterm, (Box.length_update _ _ _ _).trans hlen⟩
  obtain ⟨hfirst, hlen'⟩ := hround cs hlen
  rw [tighten, hfirst]
  exact (hround _ hlen').1

private theorem excludeTerm_eq (hf : Solvable scope f) (hlen : cs.length = scope.size)
    {term : String × Int} (hterm : term ∈ f.terms) :
    excludeTerm scope f cs term = some (Box.excludeTerm scope f cs term) := by
  have hname := hf.names term hterm
  rw [excludeTerm, restRange_eq hf hlen, Box.excludeTerm]
  simp only [Option.bind_eq_bind, Option.bind_some]
  cases (Box.restRange scope cs f term.1).constant? with
  | none => rfl
  | some rest =>
    dsimp only
    -- the coefficient is divided by only if the rest has a single value
    rw [if_neg (hf.nonzero term hterm), lookup_eq hlen hname]
    split
    · exact update_eq hlen hname _
    · rfl

private theorem exclude_eq (hf : Solvable scope f) (hlen : cs.length = scope.size) :
    exclude scope f cs = some (Box.exclude scope f cs) := by
  refine (foldlM_eq_some (fun cs : List Interval => cs.length = scope.size) hlen
    fun term hterm cs hlen => ?_).1
  exact ⟨excludeTerm_eq hf hlen hterm, (Box.length_excludeTerm f cs term).trans hlen⟩

/-- The guards of a refinement do not act. -/
theorem refine_eq (hlen : cs.length = scope.size) (hc : c.expr.Within scope) :
    refine scope cs c = some (Box.refine? scope cs c) := by
  rw [refine, range_lookup_eq hlen hc, Box.refine?]
  simp only [Option.bind_eq_bind, Option.bind_some]
  cases Box.region? c.relation with
  | some region =>
    dsimp only
    split
    · rfl
    cases hlinear : c.expr.linear? with
    | none => rfl
    | some f =>
      dsimp only
      -- the form belongs to an expression within the scope, so its guards do not act
      rw [tighten_eq (solvable_of_linear? hc hlinear) hlen]
      rfl
  | none =>
    dsimp only
    split
    · rfl
    cases hlinear : c.expr.linear? with
    | none => rfl
    | some f =>
      dsimp only
      rw [exclude_eq (solvable_of_linear? hc hlinear) hlen]
      rfl

/-! ## §8 The guards of the operations -/

/-- An operation on components answers if it does on all components that pass the checks. -/
private theorem withComponents_eq {α : Type} {checked : Except Fault (Option (List Interval))}
    {bottom : α} {go : List Interval → Option α} {answer : List Interval → α}
    (h : ∀ cs, checked = .ok (some cs) → go cs = some (answer cs)) :
    withComponents checked bottom go = some (checked.map (·.elim bottom answer)) := by
  match checked with
  | .error fault => rfl
  | .ok none => rfl
  | .ok (some cs) =>
    rw [withComponents, h cs rfl]
    rfl

/-- What has been checked of a box and an expression before its components are used. -/
theorem checked_expression {cs : List Interval}
    (h : (do Box.checkVariables scope e; Box.components? scope b) = .ok (some cs)) :
    e.Within scope ∧ cs.length = scope.size := by
  obtain ⟨⟨⟩, hcheck, h⟩ := bind_eq_ok_iff.mp h
  obtain ⟨-, hnone⟩ | ⟨_, -, hlen, hsome⟩ := Box.components?_eq_ok_iff.mp h
  · cases hnone
  · exact ⟨Box.checkVariables_eq_ok_iff.mp hcheck, Option.some.inj hsome ▸ hlen⟩

/-- The guards of a bound do not act. -/
theorem bound_eq (scope : Scope) (b : Box) (e : Arith) :
    bound scope b e = some (Box.bound scope b e) := by
  rw [bound, withComponents_eq fun cs h =>
    range_lookup_eq (checked_expression h).2 (checked_expression h).1, Box.bound]
  -- what remains is to compare the two ways of passing faults on
  cases Box.checkVariables scope e with
  | error fault => rfl
  | ok => rcases Box.components? scope b with fault | (- | cs) <;> rfl

/-- Nor do those of a test. -/
theorem satisfies_eq (scope : Scope) (b : Box) (c : Constraint) :
    satisfies scope b c = some (Box.satisfies scope b c) := by
  rw [satisfies, bound_eq, Box.satisfies]
  cases Box.bound scope b c.expr with
  | error fault => rfl
  | ok value =>
    simp only [Option.bind_some, bind, Except.bind]
    split
    · rfl
    · cases Box.region? c.relation <;> rfl

/-- Nor do those of a refinement of boxes. -/
theorem constrain_eq (scope : Scope) (b : Box) (c : Constraint) :
    constrain scope b c = some (Box.constrain scope b c) := by
  have hgo : ∀ cs, (do Box.checkVariables scope c.expr; Box.components? scope b) = .ok (some cs) →
      (refine scope cs c).map (·.elim Box.bottom Box.ofComponents) =
        some ((Box.refine? scope cs c).elim Box.bottom Box.ofComponents) := by
    intro cs h
    rw [refine_eq (checked_expression h).2 (checked_expression h).1]
    rfl
  rw [constrain, withComponents_eq hgo, Box.constrain]
  cases Box.checkVariables scope c.expr with
  | error fault => rfl
  | ok =>
    rcases Box.components? scope b with fault | (- | cs)
    · rfl
    · rfl
    · cases hrefined : Box.refine? scope cs c <;>
        simp only [bind, Except.bind, Except.map, Option.elim, hrefined] <;> rfl

/-- Nor do those of an assignment. -/
theorem assign_eq (scope : Scope) (b : Box) (x : String) (e : Arith) :
    assign scope b x e = some (Box.assign scope b x e) := by
  rw [assign, Box.assign]
  cases hposition : Box.position scope x with
  | error fault => rfl
  | ok k =>
    -- a position that was found is the position of a name of the scope
    have hk := Box.position_eq_ok_iff.mp hposition
    have hx := List.mem_of_getElem? (Scope.position?_eq_some_iff.mp hk)
    have hgo : ∀ cs, (do Box.checkVariables scope e; Box.components? scope b) = .ok (some cs) →
        (do
          let value ← range (lookup scope cs) e
          (update scope cs x value).map Box.ofComponents) =
          some (.ofComponents (cs.set k (e.range (Box.lookup scope cs)))) := by
      intro cs h
      obtain ⟨he, hlen⟩ := checked_expression h
      rw [range_lookup_eq hlen he]
      simp only [Option.bind_eq_bind, Option.bind_some, update_eq hlen hx, Box.update, hk,
        Option.map_some]
    show withComponents (do Box.checkVariables scope e; Box.components? scope b) _ _ = _
    rw [withComponents_eq hgo]
    cases Box.checkVariables scope e with
    | error fault => rfl
    | ok => rcases Box.components? scope b with fault | (- | cs) <;> rfl

/-- Nor do those of forgetting a variable. -/
theorem forget_eq (scope : Scope) (b : Box) (x : String) :
    forget scope b x = some (Box.forget scope b x) := by
  rw [forget, Box.forget]
  cases hposition : Box.position scope x with
  | error fault => rfl
  | ok k =>
    have hk := Box.position_eq_ok_iff.mp hposition
    have hx := List.mem_of_getElem? (Scope.position?_eq_some_iff.mp hk)
    have hgo : ∀ cs, Box.components? scope b = .ok (some cs) →
        (update scope cs x .full).map Box.reachable = some (.reachable (cs.set k .full)) := by
      intro cs h
      obtain ⟨-, hnone⟩ | ⟨_, -, hlen, hsome⟩ := Box.components?_eq_ok_iff.mp h
      · cases hnone
      · rw [update_eq (Option.some.inj hsome ▸ hlen) hx, Box.update, hk]
        rfl
    show withComponents (Box.components? scope b) _ _ = _
    rw [withComponents_eq hgo]
    rcases Box.components? scope b with fault | (- | cs) <;> rfl

end Guarded

end RangeGuard
