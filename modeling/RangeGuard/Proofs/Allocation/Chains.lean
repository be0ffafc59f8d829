import Mathlib.Data.List.Sort
import RangeGuard.Check.Verdict
import RangeGuard.Proofs.Allocation.Solution

/-!
# The sites of a local, through chains of copies

What a collection-typed local is resolved to can be read off the instructions of the procedure, one
by one and without their order. A chain of copies leads back from the local. If it ends in a local
with an object from elsewhere, the local is not resolved. Otherwise its sites are the constructor
calls on the locals at the ends of its chains.

Copies are the only instructions that chains go through, and a chain asks for copies and not for the
nodes that hold them. So two procedures that differ in the order of their copies resolve their
locals alike.

## Organisation

- §1 reads the three kinds of flow off single instructions.
- §2 says what chains and their ends are, in terms of the procedure, and §3 that these are the
  flows.
- §4 translates the answers of the solution, which are about flows, into chains.
- §5 compares two procedures. Their answers have the same members, and both list them in the order
  of the nodes, so they are the same list.
- §6 is a procedure whose copies go in a circle.
-/

open Relation (ReflTransGen)

namespace RangeGuard

namespace ValueFlow

/-! ## §1 The flow of a procedure -/

/-- All flows of a list of parts are those of the parts. -/
theorem foldl_append (parts : List ValueFlow) (flow : ValueFlow) :
    parts.foldl append flow =
      ⟨flow.unresolved ++ parts.flatMap (·.unresolved),
        flow.allocations ++ parts.flatMap (·.allocations),
        flow.copies ++ parts.flatMap (·.copies)⟩ := by
  induction parts generalizing flow with
  | nil => simp
  | cons part parts ih =>
    rw [List.foldl_cons, ih]
    simp [append]

variable {collection : Collection} {p : Procedure} {n site : Node} {i : Instruction} {x y : String}

/-- What is unresolved comes from the parameters or from an instruction. -/
private theorem mem_unresolved_iff : x ∈ (ofProcedure collection p).unresolved ↔
    (∃ v ∈ p.params, collection.hasType v.ty = true ∧ v.name = x) ∨
      ∃ q ∈ p.graph.nodes.zipIdx, x ∈ (ofInstruction collection q.2 q.1).unresolved := by
  simp [ofProcedure, foldl_append, ofParams, empty, and_assoc]

private theorem mem_allocations_iff : (x, site) ∈ (ofProcedure collection p).allocations ↔
    ∃ q ∈ p.graph.nodes.zipIdx, (x, site) ∈ (ofInstruction collection q.2 q.1).allocations := by
  simp [ofProcedure, foldl_append, ofParams, empty]

private theorem mem_copies_iff : (x, y) ∈ (ofProcedure collection p).copies ↔
    ∃ q ∈ p.graph.nodes.zipIdx, (x, y) ∈ (ofInstruction collection q.2 q.1).copies := by
  simp [ofProcedure, foldl_append, ofParams, empty]

/-- The copies of an instruction: an assignment of a local to a collection-typed one. -/
theorem mem_copies_ofInstruction_iff : (x, y) ∈ (ofInstruction collection n i).copies ↔
    ∃ target source, i = .assign (.var target) (.ref source) ∧ collection.hasType target.ty = true ∧
      x = target.name ∧ y = source.name := by
  cases i with
  | assign target value =>
    cases target with
    | var target =>
      cases value <;> by_cases htype : collection.hasType target.ty = true <;>
        simp [ofInstruction, htype, empty]
    | field | element => simp [ofInstruction, empty]
  | call c =>
    -- a constructor call copies nothing
    simp only [ofInstruction, ofConstructor]
    repeat' split
    all_goals simp [empty]
  | nop | goto | ret | branch => simp [ofInstruction, empty]

/-- The allocations of an instruction: a constructor call of the collection on a collection-typed
local. -/
theorem mem_allocations_ofInstruction_iff : (x, site) ∈ (ofInstruction collection n i).allocations ↔
    site = n ∧ ∃ c v, i = .call c ∧ c.kind = .constructor ∧ c.receiver = some v ∧
      collection.hasType v.ty = true ∧ c.className = some collection.className ∧ x = v.name := by
  cases i with
  | assign target value =>
    -- an assignment allocates nothing
    cases target <;> simp only [ofInstruction]
    repeat' split
    all_goals simp [empty]
  | call c =>
    cases hreceiver : c.receiver with
    | none => by_cases hkind : c.kind = .constructor <;>
        simp [ofInstruction, ofConstructor, hkind, hreceiver, empty]
    | some v => by_cases hkind : c.kind = .constructor <;>
        by_cases htype : collection.hasType v.ty = true <;>
        by_cases hclass : c.className = some collection.className <;>
        simp [ofInstruction, ofConstructor, hkind, hreceiver, htype, hclass, empty, and_comm]
  | nop | goto | ret | branch => simp [ofInstruction, empty]

/-- The locals that an instruction leaves unresolved: the receiver of another constructor call, or
the target of an assignment that is no copy. -/
theorem mem_unresolved_ofInstruction_iff : x ∈ (ofInstruction collection n i).unresolved ↔
    (∃ c v, i = .call c ∧ c.kind = .constructor ∧ c.receiver = some v ∧
      collection.hasType v.ty = true ∧ c.className ≠ some collection.className ∧ x = v.name) ∨
    ∃ v value, i = .assign (.var v) value ∧ (∀ source, value ≠ .ref source) ∧
      collection.hasType v.ty = true ∧ x = v.name := by
  cases i with
  | assign target value =>
    cases target with
    | var target =>
      cases value <;> by_cases htype : collection.hasType target.ty = true <;>
        simp [ofInstruction, htype, empty]
    | field | element => simp [ofInstruction, empty]
  | call c =>
    cases hreceiver : c.receiver with
    | none => by_cases hkind : c.kind = .constructor <;>
        simp [ofInstruction, ofConstructor, hkind, hreceiver, empty]
    | some v => by_cases hkind : c.kind = .constructor <;>
        by_cases htype : collection.hasType v.ty = true <;>
        by_cases hclass : c.className = some collection.className <;>
        simp [ofInstruction, ofConstructor, hkind, hreceiver, htype, hclass, empty]
  | nop | goto | ret | branch => simp [ofInstruction, empty]

end ValueFlow

/-! ## §2 Chains -/

namespace Procedure

/-- An instruction copies the local named `y` to the collection-typed local named `x`. -/
def Copies (p : Procedure) (collection : Collection) (x y : String) : Prop :=
  ∃ target source, .assign (.var target) (.ref source) ∈ p.graph.nodes ∧
    collection.hasType target.ty = true ∧ x = target.name ∧ y = source.name

/-- The collection-typed locals that may hold an object from elsewhere without copying it:
parameters, locals on which a constructor is called that is not known to be the collection's, and
locals that are assigned something else than a local. -/
inductive FromElsewhere (p : Procedure) (collection : Collection) : String → Prop
  | param {v : Local} (hparam : v ∈ p.params) (htype : collection.hasType v.ty = true) :
      FromElsewhere p collection v.name
  | constructed {c : Call} {v : Local} (hcall : .call c ∈ p.graph.nodes)
      (hkind : c.kind = .constructor) (hreceiver : c.receiver = some v)
      (htype : collection.hasType v.ty = true) (hclass : c.className ≠ some collection.className) :
      FromElsewhere p collection v.name
  | assigned {v : Local} {value : Rhs} (hassign : .assign (.var v) value ∈ p.graph.nodes)
      (hvalue : ∀ source, value ≠ .ref source) (htype : collection.hasType v.ty = true) :
      FromElsewhere p collection v.name

/-- The node holds a constructor call of the collection on the collection-typed local named `x`. -/
def Constructs (p : Procedure) (collection : Collection) (n : Node) (x : String) : Prop :=
  ∃ c v, p.graph.nodes[n]? = some (.call c) ∧ c.kind = .constructor ∧ c.receiver = some v ∧
    collection.hasType v.ty = true ∧ c.className = some collection.className ∧ x = v.name

end Procedure

/-! ## §3 The flow of a procedure in these terms -/

namespace ValueFlow

variable {collection : Collection} {p : Procedure} {n : Node} {x y : String}

private theorem exists_node_of_mem {i : Instruction} (h : i ∈ p.graph.nodes) :
    ∃ n, (i, n) ∈ p.graph.nodes.zipIdx := by
  obtain ⟨n, hn⟩ := List.mem_iff_getElem?.mp h
  exact ⟨n, List.mk_mem_zipIdx_iff_getElem?.mpr hn⟩

/-- The copies of the flow are the links of chains. -/
private theorem mem_copies_iff_copies : (x, y) ∈ (ofProcedure collection p).copies ↔
    p.Copies collection x y := by
  rw [mem_copies_iff]
  constructor
  · rintro ⟨⟨i, k⟩, hi, h⟩
    obtain ⟨target, source, rfl, hcopy⟩ := mem_copies_ofInstruction_iff.mp h
    exact ⟨target, source, List.fst_mem_of_mem_zipIdx hi, hcopy⟩
  · rintro ⟨target, source, hmem, hcopy⟩
    obtain ⟨k, hk⟩ := exists_node_of_mem hmem
    exact ⟨_, hk, mem_copies_ofInstruction_iff.mpr ⟨target, source, rfl, hcopy⟩⟩

/-- What the flow leaves unresolved may hold an object from elsewhere. -/
private theorem mem_unresolved_iff_fromElsewhere : x ∈ (ofProcedure collection p).unresolved ↔
    p.FromElsewhere collection x := by
  rw [mem_unresolved_iff]
  constructor
  · rintro (⟨v, hparam, htype, rfl⟩ | ⟨⟨i, k⟩, hi, h⟩)
    · exact .param hparam htype
    · have hmem := List.fst_mem_of_mem_zipIdx hi
      -- an unknown constructor, or an assignment that is no copy
      rcases mem_unresolved_ofInstruction_iff.mp h with
        ⟨c, v, rfl, hkind, hreceiver, htype, hclass, rfl⟩ | ⟨v, value, rfl, hvalue, htype, rfl⟩
      · exact .constructed hmem hkind hreceiver htype hclass
      · exact .assigned hmem hvalue htype
  · intro h
    cases h with
    | param hparam htype => exact .inl ⟨_, hparam, htype, rfl⟩
    | constructed hcall hkind hreceiver htype hclass =>
      obtain ⟨k, hk⟩ := exists_node_of_mem hcall
      exact .inr ⟨_, hk, mem_unresolved_ofInstruction_iff.mpr
        (.inl ⟨_, _, rfl, hkind, hreceiver, htype, hclass, rfl⟩)⟩
    | assigned hassign hvalue htype =>
      obtain ⟨k, hk⟩ := exists_node_of_mem hassign
      exact .inr ⟨_, hk, mem_unresolved_ofInstruction_iff.mpr
        (.inr ⟨_, _, rfl, hvalue, htype, rfl⟩)⟩

/-- The allocations of the flow are the constructor calls. -/
private theorem mem_allocations_iff_constructs : (x, n) ∈ (ofProcedure collection p).allocations ↔
    p.Constructs collection n x := by
  rw [mem_allocations_iff]
  constructor
  · rintro ⟨⟨i, k⟩, hi, h⟩
    obtain ⟨rfl, c, v, rfl, hcall⟩ := mem_allocations_ofInstruction_iff.mp h
    exact ⟨c, v, List.mk_mem_zipIdx_iff_getElem?.mp hi, hcall⟩
  · rintro ⟨c, v, hget, hcall⟩
    exact ⟨_, List.mk_mem_zipIdx_iff_getElem?.mpr hget,
      mem_allocations_ofInstruction_iff.mpr ⟨rfl, c, v, rfl, hcall⟩⟩

/-- The origins of a local are the ends of its chains. -/
private theorem mem_origins_iff_chain : y ∈ (ofProcedure collection p).origins x ↔
    ReflTransGen (p.Copies collection) x y := by
  have hlink : (fun a b => (a, b) ∈ (ofProcedure collection p).copies) = p.Copies collection := by
    funext a b
    exact propext mem_copies_iff_copies
  rw [mem_origins_iff, hlink]

private theorem pairwise_allocations_ofInstruction (n : Node) (i : Instruction) :
    (ofInstruction collection n i).allocations.Pairwise (·.2 < ·.2) := by
  -- there is at most one
  unfold ofInstruction ofConstructor
  repeat' split
  all_goals simp [empty]

/-- The allocations of a procedure stand in the order of its nodes. -/
theorem pairwise_allocations (collection : Collection) (p : Procedure) :
    (ofProcedure collection p).allocations.Pairwise (·.2 < ·.2) := by
  have hflat : (ofProcedure collection p).allocations =
      p.graph.nodes.zipIdx.flatMap fun q => (ofInstruction collection q.2 q.1).allocations := by
    simp [ofProcedure, foldl_append, ofParams, empty, List.flatMap_map]
  -- an instruction allocates at its own node, and the nodes are in order
  have hnodes : p.graph.nodes.zipIdx.Pairwise (·.2 < ·.2) := by
    rw [← List.pairwise_map, List.zipIdx_map_snd]
    exact List.pairwise_lt_range'
  rw [hflat, List.pairwise_flatMap]
  refine ⟨fun q _ => ?_, hnodes.imp fun hlt a ha b hb => ?_⟩
  · exact pairwise_allocations_ofInstruction q.2 q.1
  · rw [(mem_allocations_ofInstruction_iff.mp ha).1, (mem_allocations_ofInstruction_iff.mp hb).1]
    exact hlt

end ValueFlow

/-! ## §4 Answers -/

namespace Procedure

variable {p q : Procedure} {collection : Collection} {v : Local} {sites : List Node} {n : Node}

/-- A local is not resolved if a chain leads to an object from elsewhere. -/
theorem oracle_eq_none_iff : p.oracle collection v = none ↔
    ∃ x, ReflTransGen (p.Copies collection) v.name x ∧ p.FromElsewhere collection x := by
  simp only [← ValueFlow.mem_origins_iff_chain, ← ValueFlow.mem_unresolved_iff_fromElsewhere]
  exact ValueFlow.targets_eq_none_iff

/-- The sites of a local are the constructor calls at the ends of its chains. -/
theorem mem_oracle_iff (h : p.oracle collection v = some sites) : n ∈ sites ↔
    ∃ x, ReflTransGen (p.Copies collection) v.name x ∧ p.Constructs collection n x := by
  simp only [← ValueFlow.mem_origins_iff_chain, ← ValueFlow.mem_allocations_iff_constructs]
  exact ValueFlow.mem_targets_iff h

/-- Sites are listed in increasing order. -/
private theorem pairwise_oracle (h : p.oracle collection v = some sites) :
    sites.Pairwise (· < ·) := by
  obtain ⟨among, rfl, -⟩ := ValueFlow.targets_eq_some h
  rw [List.pairwise_map]
  exact (ValueFlow.pairwise_allocations collection p).filter among

end Procedure

/-! ## §5 The order of copies -/

/-- An assignment of a local to a local. -/
def Instruction.isCopy : Instruction → Bool
  | .assign (.var _) (.ref _) => true
  | _ => false

/-- The instruction, unless it is a copy. -/
def Instruction.unlessCopy (i : Instruction) : Option Instruction :=
  if i.isCopy then none else some i

private theorem Instruction.unlessCopy_eq_some_iff {i j : Instruction} (hi : i.isCopy = false) :
    j.unlessCopy = some i ↔ j = i := by
  unfold unlessCopy
  split
  · rename_i hj
    refine ⟨nofun, fun heq => ?_⟩
    rw [heq, hi] at hj
    cases hj
  · exact Option.some_inj

namespace Procedure

variable {p q : Procedure} {collection : Collection} {v : Local} {n : Node}

/-- The second procedure has the copies of the first one in any order, and all other instructions at
the same nodes. -/
structure ReordersCopies (p q : Procedure) : Prop where
  params : q.params = p.params
  copies : (q.graph.nodes.filter (·.isCopy)).Perm (p.graph.nodes.filter (·.isCopy))
  others : q.graph.nodes.map (·.unlessCopy) = p.graph.nodes.map (·.unlessCopy)

theorem ReordersCopies.symm (h : p.ReordersCopies q) : q.ReordersCopies p :=
  ⟨h.params.symm, h.copies.symm, h.others.symm⟩

/-- Whatever is no copy stands at the same node. -/
theorem ReordersCopies.getElem?_eq_some_iff (h : p.ReordersCopies q) {i : Instruction}
    (hi : i.isCopy = false) : q.graph.nodes[n]? = some i ↔ p.graph.nodes[n]? = some i := by
  have hnode := congrArg (·[n]? = some (some i)) h.others
  simpa [Option.map_eq_some_iff, Instruction.unlessCopy_eq_some_iff hi] using hnode

/-- The procedures have the same instructions, if not at the same nodes. -/
theorem ReordersCopies.mem_iff (h : p.ReordersCopies q) (i : Instruction) :
    i ∈ q.graph.nodes ↔ i ∈ p.graph.nodes := by
  -- copies by the permutation, other instructions by their nodes
  cases hi : i.isCopy with
  | true => simpa [List.mem_filter, hi] using h.copies.mem_iff (a := i)
  | false => simp only [List.mem_iff_getElem?, h.getElem?_eq_some_iff hi]

private theorem ReordersCopies.copies_eq (h : p.ReordersCopies q) :
    q.Copies collection = p.Copies collection := by
  funext x y
  simp only [Copies, h.mem_iff]

private theorem ReordersCopies.fromElsewhere (h : p.ReordersCopies q) {x : String}
    (hx : p.FromElsewhere collection x) : q.FromElsewhere collection x := by
  cases hx with
  | param hparam htype => exact .param (h.params ▸ hparam) htype
  | constructed hcall hkind hreceiver htype hclass =>
    exact .constructed ((h.mem_iff _).mpr hcall) hkind hreceiver htype hclass
  | assigned hassign hvalue htype => exact .assigned ((h.mem_iff _).mpr hassign) hvalue htype

private theorem ReordersCopies.fromElsewhere_iff (h : p.ReordersCopies q) {x : String} :
    q.FromElsewhere collection x ↔ p.FromElsewhere collection x :=
  ⟨h.symm.fromElsewhere, h.fromElsewhere⟩

private theorem ReordersCopies.constructs_iff (h : p.ReordersCopies q) {x : String} :
    q.Constructs collection n x ↔ p.Constructs collection n x := by
  have hcall : ∀ c, q.graph.nodes[n]? = some (.call c) ↔ p.graph.nodes[n]? = some (.call c) :=
    fun c => h.getElem?_eq_some_iff rfl
  simp only [Constructs, hcall]

/-- The order of copies does not matter. -/
private theorem oracle_eq_of_reordersCopies (h : p.ReordersCopies q) :
    q.oracle collection v = p.oracle collection v := by
  have hnone : q.oracle collection v = none ↔ p.oracle collection v = none := by
    simp only [oracle_eq_none_iff, h.copies_eq, h.fromElsewhere_iff]
  cases hp : p.oracle collection v with
  | none => exact hnone.mpr hp
  | some sites =>
    cases hq : q.oracle collection v with
    | none =>
      rw [hnone.mp hq] at hp
      cases hp
    | some others =>
      -- both answers are in increasing order and have the same members
      have hmem : ∀ n, n ∈ others ↔ n ∈ sites := by
        intro n
        rw [mem_oracle_iff hq, mem_oracle_iff hp]
        simp only [h.copies_eq, h.constructs_iff]
      exact congrArg some ((pairwise_oracle hq).eq_of_mem_iff (pairwise_oracle hp) hmem)

/-- Following copies comes to an end, after at most as many sweeps as there are pairs of a copy and
an object, and finds exactly what chains of copies say. A local is not resolved if a chain leads
from it to a local with an object from elsewhere. Every other local is resolved to the nodes, in
increasing order, of the constructor calls of the collection on locals to which chains lead from it.
The order of the copies does not matter. -/
theorem oracle_by_chains (p : Procedure) (collection : Collection) :
    ((∃ k ≤ (ValueFlow.ofProcedure collection p).copies.length *
          ((ValueFlow.ofProcedure collection p).allocations.length + 1),
        (Holdings.sweep (ValueFlow.ofProcedure collection p).copies)^[k]
            (ValueFlow.ofProcedure collection p).seeds =
          (ValueFlow.ofProcedure collection p).solution) ∧
      Holdings.sweep (ValueFlow.ofProcedure collection p).copies
          (ValueFlow.ofProcedure collection p).solution =
        (ValueFlow.ofProcedure collection p).solution) ∧
    (∀ v, p.oracle collection v = none ↔
      ∃ x, ReflTransGen (p.Copies collection) v.name x ∧ p.FromElsewhere collection x) ∧
    (∀ v, (¬∃ x, ReflTransGen (p.Copies collection) v.name x ∧ p.FromElsewhere collection x) →
      ∃ sites, p.oracle collection v = some sites ∧ sites.Pairwise (· < ·) ∧
        ∀ n, n ∈ sites ↔
          ∃ x, ReflTransGen (p.Copies collection) v.name x ∧ p.Constructs collection n x) ∧
    ∀ q, p.ReordersCopies q → ∀ v, q.oracle collection v = p.oracle collection v := by
  refine ⟨ValueFlow.solution_reached _, fun v => oracle_eq_none_iff, fun v hresolved => ?_,
    fun q hreorders v => oracle_eq_of_reordersCopies hreorders⟩
  rw [← oracle_eq_none_iff] at hresolved
  obtain ⟨sites, hsites⟩ := Option.ne_none_iff_exists'.mp hresolved
  exact ⟨sites, hsites, pairwise_oracle hsites, fun n => mem_oracle_iff hsites⟩

end Procedure

/-! ## §6 Copies in a circle

The locals `a`, `b` and `c` copy each other in a circle, against the order of the nodes. Two
collections come into it, at `a` and at `c`. The local `d` copies the parameter as well. -/

/-- A local with the type of the collection. -/
def printers (name : String) : Local := ⟨name, .object "PrinterArray"⟩

/-- The procedure. -/
def circling : Procedure where
  name := "run"
  params := [printers "u"]
  locals := [printers "u", printers "a", printers "b", printers "c", printers "d"]
  graph := {
    nodes := [.assign (.var (printers "c")) (.ref (printers "b")),
      .assign (.var (printers "b")) (.ref (printers "a")),
      .assign (.var (printers "a")) (.ref (printers "c")),
      .call ⟨.constructor, some (printers "a"), some "PrinterArray", "<init>", [.const 5]⟩,
      .call ⟨.constructor, some (printers "c"), some "PrinterArray", "<init>", [.const 7]⟩,
      .assign (.var (printers "d")) (.ref (printers "c")),
      .assign (.var (printers "d")) (.ref (printers "u"))]
    edges := [⟨0, 1, .fall⟩, ⟨1, 2, .fall⟩, ⟨2, 3, .fall⟩, ⟨3, 4, .fall⟩, ⟨4, 5, .fall⟩,
      ⟨5, 6, .fall⟩]
    nonempty := by decide
    closed := by decide }

/-- The same procedure with its copies in another order. -/
def straightened : Procedure where
  name := "run"
  params := [printers "u"]
  locals := [printers "u", printers "a", printers "b", printers "c", printers "d"]
  graph := {
    nodes := [.assign (.var (printers "d")) (.ref (printers "u")),
      .assign (.var (printers "a")) (.ref (printers "c")),
      .assign (.var (printers "b")) (.ref (printers "a")),
      .call ⟨.constructor, some (printers "a"), some "PrinterArray", "<init>", [.const 5]⟩,
      .call ⟨.constructor, some (printers "c"), some "PrinterArray", "<init>", [.const 7]⟩,
      .assign (.var (printers "c")) (.ref (printers "b")),
      .assign (.var (printers "d")) (.ref (printers "c"))]
    edges := [⟨0, 1, .fall⟩, ⟨1, 2, .fall⟩, ⟨2, 3, .fall⟩, ⟨3, 4, .fall⟩, ⟨4, 5, .fall⟩,
      ⟨5, 6, .fall⟩]
    nonempty := by decide
    closed := by decide }

/-- Both sites reach `b`, one of them through `a` and `c`; the local `d` has an object from
elsewhere. -/
theorem oracle_by_chains_circling :
    circling.oracle {} (printers "b") = some [3, 4] ∧
    (∃ x, ReflTransGen (circling.Copies {}) "b" x ∧ circling.Constructs {} 4 x) ∧
    (∃ x, ReflTransGen (circling.Copies {}) "d" x ∧ circling.FromElsewhere {} x) ∧
    circling.ReordersCopies straightened ∧
    straightened.oracle {} (printers "b") = some [3, 4] := by
  obtain ⟨-, hnone, hsome, horder⟩ := Procedure.oracle_by_chains circling {}
  have hb : circling.oracle {} (printers "b") = some [3, 4] := by decide +kernel
  have hd : circling.oracle {} (printers "d") = none := by decide +kernel
  have hreorders : circling.ReordersCopies straightened := ⟨rfl, by decide, by decide⟩
  obtain ⟨sites, hsites, -, hmem⟩ := hsome (printers "b") (by rw [← hnone, hb]; nofun)
  obtain rfl := Option.some.inj (hb.symm.trans hsites)
  exact ⟨hb, (hmem 4).mp (by decide), (hnone _).mp hd, hreorders, (horder _ hreorders _).trans hb⟩

end RangeGuard
