import RangeGuard.Allocation.Site
import RangeGuard.Program.Class

/-!
# What collection locals may hold

The sites whose objects a collection-typed local may hold, whatever the order in which the
statements run. A constructor call of the collection gives its receiver an object of that site, and
a copy between locals passes on whatever its source may hold. A local that may also hold an object
from elsewhere (a parameter, the result of a call, the content of a field or an array element)
cannot be resolved, and neither can one that copies it.

## Layers

1. `ValueFlow` collects, instruction by instruction, where objects come from and along which copies
   they are passed on.
2. `Holdings` says for each object which locals may hold it so far. `Holdings.sweep` follows every
   copy once, for all objects at the same time.
3. `Holdings.solve` sweeps until nothing changes. A sweep that adds a holder of an object has a copy
   into that holder, which cannot add it again, so the sweeps come to an end.
4. `ValueFlow.targets` reads the answer for one local off the solution.
-/

namespace RangeGuard

/-- Where the objects of collection-typed locals come from. Locals are given by name. -/
structure ValueFlow where
  /-- Locals that may hold an object from elsewhere. -/
  unresolved : List String
  /-- Locals with the node of a constructor call that initialises them. -/
  allocations : List (String × Node)
  /-- Copies, the target before the source. -/
  copies : List (String × String)
deriving DecidableEq, Inhabited

namespace ValueFlow

/-! ## Reading a procedure -/

/-- Nothing flows. -/
def empty : ValueFlow := ⟨[], [], []⟩

/-- All flows of two parts. -/
def append (a b : ValueFlow) : ValueFlow :=
  ⟨a.unresolved ++ b.unresolved, a.allocations ++ b.allocations, a.copies ++ b.copies⟩

/-- What a constructor call does to its receiver. -/
def ofConstructor (collection : Collection) (n : Node) (c : Call) : ValueFlow :=
  match c.receiver with
  | none => empty
  | some receiver =>
    if collection.hasType receiver.ty then
      if c.className = some collection.className then
        { empty with allocations := [(receiver.name, n)] }
      else { empty with unresolved := [receiver.name] }
    else empty

/-- What the instruction at a node does to collection-typed locals. -/
def ofInstruction (collection : Collection) (n : Node) : Instruction → ValueFlow
  | .call c => if c.kind = .constructor then ofConstructor collection n c else empty
  | .assign (.var target) value =>
    if collection.hasType target.ty then
      match value with
      | .ref source => { empty with copies := [(target.name, source.name)] }
      | _ => { empty with unresolved := [target.name] }
    else empty
  | _ => empty

/-- Parameters come from elsewhere. -/
def ofParams (collection : Collection) (params : List Local) : ValueFlow :=
  { empty with unresolved := (params.filter fun p => collection.hasType p.ty).map (·.name) }

/-- The flows of a procedure. -/
def ofProcedure (collection : Collection) (p : Procedure) : ValueFlow :=
  (p.graph.nodes.zipIdx.map fun q => ofInstruction collection q.2 q.1).foldl append
    (ofParams collection p.params)

/-! ## Following copies -/

/-- The locals that may hold an object, after a copy has been followed: if the source may hold the
object, so may the target. -/
def passOn (copy : String × String) (holders : List String) : List String :=
  if copy.2 ∈ holders then holders.insert copy.1 else holders

/-- Following a copy adds its target, or nothing. -/
theorem passOn_eq (copy : String × String) (holders : List String) :
    passOn copy holders = holders ∨
      copy.2 ∈ holders ∧ copy.1 ∉ holders ∧ passOn copy holders = copy.1 :: holders := by
  unfold passOn
  split
  · rename_i hsource
    by_cases htarget : copy.1 ∈ holders
    · exact .inl (List.insert_of_mem htarget)
    · exact .inr ⟨hsource, htarget, List.insert_of_not_mem htarget⟩
  · exact .inl rfl

/-- The copies into other locals than the holders of an object; only these can add a holder. -/
def copiesElsewhere (copies : List (String × String)) (holders : List String) :
    List (String × String) :=
  copies.filter fun copy => decide (copy.1 ∉ holders)

/-- Following a copy adds no holder, or there are fewer copies left that can add one. -/
theorem passOn_cases {copies : List (String × String)} {copy : String × String}
    (hcopy : copy ∈ copies) (holders : List String) :
    passOn copy holders = holders ∨
      (copiesElsewhere copies (passOn copy holders)).length <
        (copiesElsewhere copies holders).length := by
  rcases passOn_eq copy holders with hsame | ⟨-, htarget, hadded⟩
  · exact .inl hsame
  · right
    have hfilter : copiesElsewhere copies (copy.1 :: holders) =
        (copiesElsewhere copies holders).filter fun other => decide (other.1 ≠ copy.1) := by
      rw [copiesElsewhere, copiesElsewhere, List.filter_filter]
      simp
    rw [hadded, hfilter, List.length_filter_lt_length_iff_exists]
    exact ⟨copy, List.mem_filter.mpr ⟨hcopy, decide_eq_true htarget⟩, by simp⟩

end ValueFlow

/-- What collection-typed locals may hold, as far as copies have been followed. -/
structure Holdings where
  /-- Locals that may hold an object from elsewhere. -/
  unresolved : List String
  /-- Sites, each with the locals that may hold an object of it. -/
  sites : List (Node × List String)
deriving DecidableEq, Inhabited

namespace Holdings

/-- The holdings in which all lists of locals are changed in the same way. -/
def mapHolders (f : List String → List String) (h : Holdings) : Holdings :=
  ⟨f h.unresolved, h.sites.map fun site => (site.1, f site.2)⟩

/-- Follows a copy for whatever its source may hold. -/
def pass (h : Holdings) (copy : String × String) : Holdings :=
  h.mapHolders (ValueFlow.passOn copy)

/-- Follows each of the copies once, in their order. -/
def sweep (copies : List (String × String)) (h : Holdings) : Holdings := copies.foldl pass h

/-- The sum of a quantity over all lists of locals. -/
def total (m : List String → Nat) (h : Holdings) : Nat :=
  h.sites.foldr (fun site rest => m site.2 + rest) (m h.unresolved)

/-- A change of lists that lowers a quantity lowers its total, unless it changes nothing. -/
theorem mapHolders_cases {f : List String → List String} {m : List String → Nat}
    (hf : ∀ holders, f holders = holders ∨ m (f holders) < m holders) (h : Holdings) :
    h.mapHolders f = h ∨ (h.mapHolders f).total m < h.total m := by
  obtain ⟨unresolved, sites⟩ := h
  induction sites with
  | nil => exact (hf unresolved).imp (fun hsame => congrArg (Holdings.mk · []) hsame) id
  | cons site sites ih =>
    simp only [mapHolders, total, List.map_cons, List.foldr_cons, Holdings.mk.injEq,
      List.cons.injEq] at ih ⊢
    rcases hf site.2 with hsame | hfewer
    · rw [hsame]
      exact ih.imp (fun hrest => ⟨hrest.1, rfl, hrest.2⟩) (fun hrest => by omega)
    · -- the other lists do not make up for the loss
      right
      rcases ih with ⟨hunresolved, hsites⟩ | hrest
      · rw [hunresolved, hsites]
        omega
      · omega

/-- How many holders the copies can still add at most. -/
def missing (copies : List (String × String)) (h : Holdings) : Nat :=
  h.total fun holders => (ValueFlow.copiesElsewhere copies holders).length

/-- Following one of the copies changes nothing, or fewer holders are missing after it. -/
theorem pass_cases {copies : List (String × String)} {copy : String × String}
    (hcopy : copy ∈ copies) (h : Holdings) :
    h.pass copy = h ∨ (h.pass copy).missing copies < h.missing copies :=
  mapHolders_cases (f := ValueFlow.passOn copy)
    (m := fun holders => (ValueFlow.copiesElsewhere copies holders).length)
    (ValueFlow.passOn_cases hcopy) h

/-- A sweep changes nothing, or fewer holders are missing after it. -/
theorem sweep_cases (copies : List (String × String)) (h : Holdings) :
    sweep copies h = h ∨ (sweep copies h).missing copies < h.missing copies := by
  -- by induction on the rest of the sweep, whose copies are among all copies
  suffices hrest : ∀ rest : List (String × String), (∀ copy ∈ rest, copy ∈ copies) → ∀ h : Holdings,
      rest.foldl pass h = h ∨ (rest.foldl pass h).missing copies < h.missing copies from
    hrest copies (fun _ hcopy => hcopy) h
  intro rest hrest
  induction rest with
  | nil => exact fun h => .inl rfl
  | cons copy rest ih =>
    intro h
    obtain ⟨hcopy, hrest⟩ := List.forall_mem_cons.mp hrest
    rw [List.foldl_cons]
    rcases pass_cases hcopy h with hsame | hless
    · rw [hsame]
      exact ih hrest h
    · right
      rcases ih hrest (h.pass copy) with hsame | hless'
      · rw [hsame]
        exact hless
      · exact Nat.lt_trans hless' hless

/-- Follows the copies again and again, until a sweep over all of them changes nothing. -/
def solve (copies : List (String × String)) (h : Holdings) : Holdings :=
  if hstable : sweep copies h = h then h
  else
    have := (sweep_cases copies h).resolve_left hstable
    solve copies (sweep copies h)
  termination_by h.missing copies

end Holdings

namespace ValueFlow

/-- What locals may hold before any copy has been followed. -/
def seeds (flow : ValueFlow) : Holdings :=
  ⟨flow.unresolved, flow.allocations.map fun allocation => (allocation.2, [allocation.1])⟩

/-- What locals may hold. -/
def solution (flow : ValueFlow) : Holdings := flow.seeds.solve flow.copies

/-- The sites that a local may refer to, in increasing order; none if it cannot be resolved. -/
def targets (flow : ValueFlow) (x : String) : Option (List Node) :=
  let held := flow.solution
  if x ∈ held.unresolved then none
  else some ((held.sites.filter fun site => x ∈ site.2).map (·.1))

end ValueFlow

end RangeGuard
