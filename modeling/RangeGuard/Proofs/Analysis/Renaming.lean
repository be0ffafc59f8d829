import RangeGuard.Proofs.Analysis.Simulation
import RangeGuard.Proofs.Box.Renaming

/-!
# Names and their order do not matter

The analysis of a graph under other names of its integer variables, over a scope that lists the new
names in any order and may have further ones, goes the same way: it makes the same visits, and
before every node the two boxes are the same up to the names, with the further variables
unconstrained.

## The argument

1. *Operations* (§1). Each operation on boxes answers on both sides, and with corresponding boxes.
   The existence of answers comes from well-formedness, the correspondence from the theory of
   renamed boxes.
2. *Instructions* (§2). An instruction and its renamed form ask the same of the two domains, because
   a local is tracked under the one name exactly if it is tracked under the other. That needs the
   renaming to be injective on the variables of the graph as well as on the scope: otherwise a local
   outside the scope could be given the name of one inside.
3. *The analysis* (§3). So the two iterations are in step.
-/

namespace RangeGuard

/-- The renaming keeps the variables of the scope and of the graph apart, the second scope has the
renamed variables of the first, and whatever else it has does not occur in the renamed graph. -/
structure Renaming (ρ : String → String) (scope scope' : Scope) (g : FlowGraph) : Prop where
  injective : Set.InjOn ρ {x | x ∈ scope.names ∨ ∃ v ∈ g.locals, v.ty = .int ∧ v.name = x}
  mem : ∀ x ∈ scope.names, ρ x ∈ scope'.names
  additional : ∀ y ∈ scope'.names, (∃ x ∈ scope.names, ρ x = y) ∨
    ∀ v ∈ (g.rename ρ).locals, v.ty = .int → v.name ≠ y

/-- The local is in the one scope exactly if it is in the other under its new name. -/
def Local.SameTracked (ρ : String → String) (scope scope' : Scope) (v : Local) : Prop :=
  v.ty = .int → (ρ v.name ∈ scope'.names ↔ v.name ∈ scope.names)

namespace Renaming

variable {ρ : String → String} {scope scope' : Scope} {g : FlowGraph}

/-- A renaming for a graph is one between the scopes. -/
private theorem renames (h : Renaming ρ scope scope' g) : scope.Renames ρ scope' where
  injective hx hy := fun heq => h.injective (.inl hx) (.inl hy) heq
  mem hx := h.mem _ hx

/-- The locals of the graph are tracked under both names or under neither. -/
private theorem sameTracked (h : Renaming ρ scope scope' g) {v : Local} (hv : v ∈ g.locals) :
    v.SameTracked ρ scope scope' := by
  intro hint
  refine ⟨fun hmem => ?_, h.mem v.name⟩
  -- the new name is that of a scope variable, which is the local by injectivity, or an additional
  -- one, and those do not occur in the renamed graph
  rcases h.additional _ hmem with ⟨x, hx, heq⟩ | hadditional
  · exact h.injective (.inl hx) (.inr ⟨v, hv, hint, rfl⟩) heq ▸ hx
  · have hrenamed : v.rename ρ ∈ (g.rename ρ).locals := FlowGraph.mem_locals_rename hv
    rw [Local.rename_of_int hint] at hrenamed
    exact absurd rfl (hadditional _ hrenamed rfl)

end Renaming

namespace Box

variable {ρ : String → String} {scope scope' : Scope} {s s' : Box} {x : String} {v : Local}
  {e l r : Arith} {op left right : Operand}

/-- Well-formed boxes that are the same up to names. -/
def Same (ρ : String → String) (scope scope' : Scope) (s s' : Box) : Prop :=
  (WellFormed scope s ∧ WellFormed scope' s') ∧ Corresponds ρ scope scope' s s'

/-! ## §1 Operations -/

private theorem bothAnswer_assign (hρ : scope.Renames ρ scope') (hs : Same ρ scope scope' s s')
    (hx : x ∈ scope.names) (he : e.Within scope) :
    BothAnswer (Same ρ scope scope') (assign scope s x e)
      (assign scope' s' (ρ x) (e.rename ρ)) := by
  obtain ⟨t, ht⟩ := exists_assign hs.1.1.proper hx he
  obtain ⟨t', ht'⟩ := exists_assign hs.1.2.proper (hρ.mem hx) (Arith.within_rename hρ he)
  exact ⟨t, t', ht, ht', ⟨(preserves_wellFormed scope).assign hs.1.1 ht,
    (preserves_wellFormed scope').assign hs.1.2 ht'⟩, corresponds_assign hρ hs.2 he ht ht'⟩

private theorem bothAnswer_forget (hρ : scope.Renames ρ scope') (hs : Same ρ scope scope' s s')
    (hx : x ∈ scope.names) :
    BothAnswer (Same ρ scope scope') (forget scope s x) (forget scope' s' (ρ x)) := by
  obtain ⟨t, ht⟩ := exists_forget hs.1.1.proper hx
  obtain ⟨t', ht'⟩ := exists_forget hs.1.2.proper (hρ.mem hx)
  exact ⟨t, t', ht, ht', ⟨(preserves_wellFormed scope).forget hs.1.1 ht,
    (preserves_wellFormed scope').forget hs.1.2 ht'⟩, corresponds_forget hρ hs.2 ht ht'⟩

/-- Refinement by a comparison answers on both sides, with the same box up to names. -/
private theorem bothAnswer_constrain (hρ : scope.Renames ρ scope') (hs : Same ρ scope scope' s s')
    (hl : l.IsAtom ∧ l.Within scope) (hr : r.IsAtom ∧ r.Within scope) (comparator : Comparator) :
    BothAnswer (Same ρ scope scope') (constrain scope s (comparator.constraint l r))
      (constrain scope' s' (comparator.constraint (l.rename ρ) (r.rename ρ))) := by
  obtain ⟨t, ht⟩ := exists_constrain hs.1.1.proper (Arith.within_constraint comparator hl.2 hr.2)
  obtain ⟨t', ht'⟩ := exists_constrain hs.1.2.proper (Arith.within_constraint comparator
    (Arith.within_rename hρ hl.2) (Arith.within_rename hρ hr.2))
  exact ⟨t, t', ht, ht', ⟨(preserves_wellFormed scope).constrain hs.1.1 ht,
    (preserves_wellFormed scope').constrain hs.1.2 ht'⟩,
    corresponds_constrain hρ hs.1.1 hs.1.2 hs.2 hl hr comparator ht ht'⟩

/-- Joins and widenings answer on both sides, with the same box up to names. -/
private theorem bothAnswer_pointwise {f : Interval → Interval → Interval} {a a' b b' : Box}
    (hf : f .full .full = .full)
    (hcanonical : ∀ {i j : Interval}, i.Canonical → j.Canonical → (f i j).Canonical)
    (hρ : scope.Renames ρ scope') (ha : Same ρ scope scope' a a') (hb : Same ρ scope scope' b b') :
    BothAnswer (Same ρ scope scope') (pointwise scope f a b) (pointwise scope' f a' b') := by
  obtain ⟨t, ht, -⟩ := exists_pointwise f ha.1.1.proper hb.1.1.proper
  obtain ⟨t', ht', -⟩ := exists_pointwise f ha.1.2.proper hb.1.2.proper
  exact ⟨t, t', ht, ht', ⟨wellFormed_pointwise hcanonical ha.1.1 hb.1.1 ht,
    wellFormed_pointwise hcanonical ha.1.2 hb.1.2 ht'⟩,
      corresponds_pointwise hρ hf ha.2 hb.2 ht ht'⟩

private theorem same_top : Same ρ scope scope' (top scope) (top scope') :=
  ⟨⟨wellFormed_top scope, wellFormed_top scope'⟩, .reachable renamed_top⟩

private theorem same_bottom : Same ρ scope scope' bottom bottom := ⟨⟨trivial, trivial⟩, .bottom⟩

private theorem isBottom_same (hs : Same ρ scope scope' s s') : isBottom s' = isBottom s := by
  cases hs.2 <;> rfl

/-! ## §2 Instructions -/

/-- Renaming does not change what is tracked. -/
private theorem tracks_rename (hv : v.SameTracked ρ scope scope') :
    (domain scope').tracks (v.rename ρ) = (domain scope).tracks v := by
  rw [Bool.eq_iff_iff, Domain.tracks_iff, Domain.tracks_iff, Local.ty_rename]
  refine and_congr_right fun hint => ?_
  rw [Local.rename_of_int hint]
  exact hv hint

/-- An operand is expressed by the renamed expression, or in neither domain. -/
theorem operand?_rename (hop : ∀ v ∈ op.locals, v.SameTracked ρ scope scope') :
    (domain scope').operand? (op.rename ρ) = ((domain scope).operand? op).map (Arith.rename ρ) := by
  cases op with
  | const n => rfl
  | var v =>
    simp only [Operand.rename, Domain.operand?, tracks_rename (hop v (List.mem_singleton_self v))]
    split
    · rename_i htracks
      rw [Local.rename_of_int (Domain.tracks_iff.mp htracks).1]
      rfl
    · rfl

/-- The expression of an operand is a constant or a variable of the scope. -/
private theorem isAtom_of_operand? (h : (domain scope).operand? op = some e) :
    e.IsAtom ∧ e.Within scope := by
  rcases Query.operand?_cases scope op with ⟨e', he', hop⟩ | hop
  · rwa [Option.some.inj (h.symm.trans (hop (domain scope) rfl))]
  · cases h.symm.trans (hop (domain scope) rfl)

/-- Storing a right side does the same on both sides. -/
private theorem bothAnswer_store (hρ : scope.Renames ρ scope') (hs : Same ρ scope scope' s s')
    (hx : x ∈ scope.names) {value : Rhs}
    (hvalue : ∀ v ∈ value.locals, v.SameTracked ρ scope scope') :
    BothAnswer (Same ρ scope scope') ((domain scope).store s x value)
      ((domain scope').store s' (ρ x) (value.rename ρ)) := by
  cases value with
  | const n => exact bothAnswer_assign hρ hs hx (Arith.within_const n)
  | ref source =>
    simp only [Domain.store, Rhs.rename,
      tracks_rename (hvalue source (List.mem_singleton_self source))]
    split
    · rename_i htracks
      obtain ⟨hint, hmem⟩ := Domain.tracks_iff.mp htracks
      rw [Local.rename_of_int hint]
      exact bothAnswer_assign hρ hs hx (Arith.within_var hmem)
    · exact bothAnswer_forget hρ hs hx
  | binary op left right =>
    have hleft := operand?_rename fun v hv => hvalue v (List.mem_append_left _ hv)
    have hright := operand?_rename fun v hv => hvalue v (List.mem_append_right _ hv)
    -- the constant zero has no name
    have hzero : (right.rename ρ = .const 0) ↔ right = .const 0 := by
      cases right <;> simp [Operand.rename]
    simp only [Domain.store, Rhs.rename, hzero, hleft, hright]
    split
    · -- division by the constant zero gives bottom on both sides
      exact ⟨_, _, rfl, rfl, same_bottom⟩
    · cases hl : (domain scope).operand? left with
      | none => exact bothAnswer_forget hρ hs hx
      | some l =>
        cases hr : (domain scope).operand? right with
        | none => exact bothAnswer_forget hρ hs hx
        | some r =>
          have hwithin := Arith.within_binary op (isAtom_of_operand? hl).2 (isAtom_of_operand? hr).2
          have hassign := bothAnswer_assign hρ hs hx hwithin
          rwa [Arith.rename_arith] at hassign
  | call c => exact bothAnswer_forget hρ hs hx
  | unmodeled description => exact bothAnswer_forget hρ hs hx

private theorem bothAnswer_assignment (hρ : scope.Renames ρ scope') (hs : Same ρ scope scope' s s')
    {target : Place} {value : Rhs}
    (hlocals : ∀ v ∈ target.locals ++ value.locals, v.SameTracked ρ scope scope') :
    BothAnswer (Same ρ scope scope') ((domain scope).assignment s target value)
      ((domain scope').assignment s' (target.rename ρ) (value.rename ρ)) := by
  cases target with
  | var v =>
    simp only [Domain.assignment, Place.rename, tracks_rename (hlocals v List.mem_cons_self)]
    split
    · rename_i htracks
      obtain ⟨hint, hmem⟩ := Domain.tracks_iff.mp htracks
      rw [Local.rename_of_int hint]
      exact bothAnswer_store hρ hs hmem fun v hv => hlocals v (List.mem_append_right _ hv)
    · exact ⟨s, s', rfl, rfl, hs⟩
  | field base name => exact ⟨s, s', rfl, rfl, hs⟩
  | element base index => exact ⟨s, s', rfl, rfl, hs⟩

/-- A comparison does the same on both sides, on either edge. -/
private theorem bothAnswer_condition (hρ : scope.Renames ρ scope') (hs : Same ρ scope scope' s s')
    (hlocals : ∀ v ∈ left.locals ++ right.locals, v.SameTracked ρ scope scope')
    (comparator : Comparator) :
    BothAnswer (fun states states' => Same ρ scope scope' states.1 states'.1 ∧
        Same ρ scope scope' states.2 states'.2)
      ((domain scope).condition s comparator left right)
      ((domain scope').condition s' comparator (left.rename ρ) (right.rename ρ)) := by
  have hleft := operand?_rename fun v hv => hlocals v (List.mem_append_left _ hv)
  have hright := operand?_rename fun v hv => hlocals v (List.mem_append_right _ hv)
  simp only [Domain.condition, hleft, hright]
  cases hl : (domain scope).operand? left with
  | none => exact ⟨(s, s), (s', s'), rfl, rfl, hs, hs⟩
  | some l =>
    cases hr : (domain scope).operand? right with
    | none => exact ⟨(s, s), (s', s'), rfl, rfl, hs, hs⟩
    | some r =>
      have hl := isAtom_of_operand? hl
      have hr := isAtom_of_operand? hr
      obtain ⟨t, t', ht, ht', htaken⟩ := bothAnswer_constrain hρ hs hl hr comparator
      -- the other edge is the opposite comparison
      obtain ⟨f, f', hf, hf', hnot⟩ := bothAnswer_constrain hρ hs hl hr comparator.negate
      exact ⟨(t, f), (t', f'), bind_eq_ok_iff.mpr ⟨t, ht, bind_eq_ok_iff.mpr ⟨f, hf, rfl⟩⟩,
        bind_eq_ok_iff.mpr ⟨t', ht', bind_eq_ok_iff.mpr ⟨f', hf', rfl⟩⟩, htaken, hnot⟩

/-- The transfer of an instruction and of its renamed form. -/
theorem bothAnswer_transfer (hρ : scope.Renames ρ scope') (hs : Same ρ scope scope' s s')
    {i : Instruction} (hi : ∀ v ∈ i.locals, v.SameTracked ρ scope scope') :
    BothAnswer (fun o o' => ∀ kind, Same ρ scope scope' (o.along kind) (o'.along kind))
      ((domain scope).transfer s i) ((domain scope').transfer s' (i.rename ρ)) := by
  have hbottom : (domain scope').isBottom s' = (domain scope).isBottom s := isBottom_same hs
  unfold Domain.transfer
  rw [hbottom]
  split
  · exact ⟨.uniform s, .uniform s', rfl, rfl, fun _ => hs⟩
  · -- bottom is passed on; otherwise by the kind of instruction
    cases i with
    | assign target value =>
      obtain ⟨t, t', ht, ht', hsame⟩ := bothAnswer_assignment hρ hs hi
      exact ⟨.uniform t, .uniform t', map_eq_ok_iff.mpr ⟨t, ht, rfl⟩,
        map_eq_ok_iff.mpr ⟨t', ht', rfl⟩, fun _ => hsame⟩
    | branch comparator left right =>
      obtain ⟨states, states', h, h', htaken, hnot⟩ := bothAnswer_condition hρ hs hi comparator
      refine ⟨_, _, map_eq_ok_iff.mpr ⟨states, h, rfl⟩, map_eq_ok_iff.mpr ⟨states', h', rfl⟩, ?_⟩
      intro kind
      cases kind with
      | branch => exact htaken
      | fall => exact hnot
    | call c | nop | goto | ret => exact ⟨.uniform s, .uniform s', rfl, rfl, fun _ => hs⟩

/-! ## §3 The analysis -/

/-- The analyses under both namings are in step. -/
theorem inStep_rename {g : FlowGraph} (h : Renaming ρ scope scope' g) (settings : Settings) :
    Iteration.InStep (Same ρ scope scope') (Iteration.of (domain scope) settings g)
      (Iteration.of (domain scope') settings (g.rename ρ)) where
  edges := rfl
  size := g.size_rename
  headers := g.loopHeaders_rename
  threshold := rfl
  top := same_top
  bottom := same_bottom
  le ha hb := le_corresponds ha.2 hb.2
  join ha hb := bothAnswer_pointwise rfl Interval.Canonical.join h.renames ha hb
  widen ha hb := bothAnswer_pointwise rfl Interval.Canonical.widen h.renames ha hb
  transfer {s s'} n hs := by
    have hinstruction : (g.rename ρ).instruction n = (g.instruction n).rename ρ :=
      g.instruction_rename n
    show BothAnswer _ ((domain scope).transfer s (g.instruction n))
      ((domain scope').transfer s' ((g.rename ρ).instruction n))
    rw [hinstruction]
    exact bothAnswer_transfer h.renames hs fun v hv =>
      h.sameTracked (FlowGraph.mem_locals_of_instruction hv)

/-- Other names for the integer variables, in another order and with additional variables, change
nothing but the names: the analysis makes the same visits and ends the same way, and before every
node the boxes are both bottom, or give each variable the same interval under both names and leave
the additional variables unconstrained. -/
theorem analyze_rename {g : FlowGraph} (h : Renaming ρ scope scope' g) (settings : Settings) :
    ((domain scope').analyze settings (g.rename ρ)).visits =
      ((domain scope).analyze settings g).visits ∧
    ((domain scope').analyze settings (g.rename ρ)).converged =
      ((domain scope).analyze settings g).converged ∧
    ∀ n, Corresponds ρ scope scope'
      (((domain scope).analyze settings g).at (domain scope) n)
      (((domain scope').analyze settings (g.rename ρ)).at (domain scope') n) := by
  have hstep := inStep_rename h settings
  have hrun := hstep.iterate hstep.start settings.visitLimit
  exact ⟨hrun.visits, congrArg List.isEmpty hrun.queue, fun n => (hstep.before hrun n).2⟩

end Box

/-- Sets `a` to zero and adds one until it is at least `b`. -/
def raisingLoop : FlowGraph where
  nodes := [.assign (.var ⟨"a", .int⟩) (.const 0),
    .branch .ge (.var ⟨"a", .int⟩) (.var ⟨"b", .int⟩),
    .assign (.var ⟨"a", .int⟩) (.binary .add (.var ⟨"a", .int⟩) (.const 1)), .ret]
  edges := [⟨0, 1, .fall⟩, ⟨1, 3, .branch⟩, ⟨1, 2, .fall⟩, ⟨2, 1, .fall⟩]
  nonempty := by decide
  closed := by decide

/-- The loop is entered at its test. -/
private theorem loopHeaders_raisingLoop : raisingLoop.loopHeaders = [⟨1, 2⟩] := by
  simp [raisingLoop]

/-- Names that turn the order of `a` and `b` around. -/
def turnedAround (x : String) : String :=
  if x = "a" then "z" else if x = "b" then "y" else x

/-- The names are turned around, and an additional one comes first. -/
private theorem renaming_raisingLoop : Renaming turnedAround (Scope.ofNames ["a", "b"])
    (Scope.ofNames ["w", "z", "y"]) raisingLoop where
  injective := by
    have hnames : ∀ {x}, (x ∈ (Scope.ofNames ["a", "b"]).names ∨
        ∃ v ∈ raisingLoop.locals, v.ty = .int ∧ v.name = x) → x ∈ ["a", "b"] := by
      rintro x (hx | ⟨v, hv, -, rfl⟩)
      · exact hx
      · revert v
        decide
    have hinjective : ∀ x ∈ ["a", "b"], ∀ y ∈ ["a", "b"], turnedAround x = turnedAround y →
        x = y := by
      decide
    exact fun x hx y hy => hinjective x (hnames hx) y (hnames hy)
  mem := by decide
  additional := by decide

/-- Inside the loop `a` is at least zero and below `b`, whatever their names are. -/
theorem analyze_rename_raisingLoop :
    Renaming turnedAround (Scope.ofNames ["a", "b"]) (Scope.ofNames ["w", "z", "y"]) raisingLoop ∧
    ((Box.domain (Scope.ofNames ["w", "z", "y"])).analyze {}
      (raisingLoop.rename turnedAround)).converged = true ∧
    Box.Corresponds turnedAround (Scope.ofNames ["a", "b"]) (Scope.ofNames ["w", "z", "y"])
      (.reachable [⟨.finite 0, .posInf⟩, ⟨.finite 1, .posInf⟩])
      (((Box.domain (Scope.ofNames ["w", "z", "y"])).analyze {}
        (raisingLoop.rename turnedAround)).at (Box.domain (Scope.ofNames ["w", "z", "y"])) 2) := by
  obtain ⟨-, hconverged, hcorresponds⟩ := Box.analyze_rename renaming_raisingLoop {}
  have hresult : ((Box.domain (Scope.ofNames ["a", "b"])).analyze {} raisingLoop).converged = true ∧
      ((Box.domain (Scope.ofNames ["a", "b"])).analyze {} raisingLoop).at
        (Box.domain (Scope.ofNames ["a", "b"])) 2 =
          .reachable [⟨.finite 0, .posInf⟩, ⟨.finite 1, .posInf⟩] := by
    rw [Domain.analyze, Iteration.of, loopHeaders_raisingLoop]
    decide +kernel
  exact ⟨renaming_raisingLoop, hconverged.trans hresult.1, hresult.2 ▸ hcorresponds 2⟩

end RangeGuard
