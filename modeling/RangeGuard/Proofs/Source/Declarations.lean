import Mathlib.Data.List.Forall2
import Mathlib.Data.List.Nodup
import RangeGuard.Proofs.Program.Linking
import RangeGuard.Source.Class

/-!
# Declarations in accepted classes

The instructions of a procedure that was read from a text mention declared locals only, with the
types that were declared, no two locals have the same name, and the parameters are among the locals.
A name that stands in an instruction therefore has one type wherever it stands.

Reading goes by lines, and each line keeps what holds of the method up to it. A statement is read
against the locals declared so far, and later declarations only add to them.

## Organisation

- §1 says which locals an instruction mentions.
- §2 and §3 follow the readers of the parts of a statement, from operands to statements. Each lemma
  has the form of its reader: one case for each of its branches, and one step for each of its binds.
- §4 and §5 follow the lines. The induction over the lines is made once, for any property that every
  line keeps (`Source.Progress.of_readLines`, `Source.Progress.of_parse`).
-/

namespace RangeGuard

/-! ## §1 The locals of instructions -/

/-- The locals that an operand mentions. -/
def Operand.locals : Operand → List Local
  | const _ => []
  | var v => [v]

/-- The locals that a call mentions. -/
def Call.locals (c : Call) : List Local := c.receiver.toList ++ c.args.flatMap Operand.locals

/-- The locals that a place mentions. -/
def Place.locals : Place → List Local
  | var v => [v]
  | field base _ => base.toList
  | element base index => [base] ++ index.locals

/-- The locals that a right side mentions. -/
def Rhs.locals : Rhs → List Local
  | const _ => []
  | ref v => [v]
  | binary _ left right => left.locals ++ right.locals
  | call c => c.locals
  | unmodeled _ => []

/-- The locals that an instruction mentions. -/
def Instruction.locals : Instruction → List Local
  | assign target value => target.locals ++ value.locals
  | branch _ left right => left.locals ++ right.locals
  | call c => c.locals
  | _ => []

/-- The declarations of a procedure: names are distinct, and the parameters and everything that the
instructions mention are among the locals. -/
structure Procedure.Declared (p : Procedure) : Prop where
  names : (p.locals.map (·.name)).Nodup
  params : p.params ⊆ p.locals
  instructions : ∀ i ∈ p.graph.nodes, i.locals ⊆ p.locals

/-- A traversal answers if all its steps do, with their answers. -/
theorem mapM_eq_ok_iff {ε α β : Type} {f : α → Except ε β} {as : List α} {bs : List β} :
    as.mapM f = .ok bs ↔ List.Forall₂ (fun a b => f a = .ok b) as bs := by
  induction as generalizing bs with
  | nil =>
    rw [List.mapM_nil, List.forall₂_nil_left_iff]
    exact ⟨fun h => (Except.ok.inj h).symm, fun h => congrArg Except.ok h.symm⟩
  | cons a as ih =>
    simp only [List.mapM_cons, bind_eq_ok_iff, ih, List.forall₂_cons_left_iff]
    constructor
    · rintro ⟨b, hb, rest, hrest, h⟩
      exact ⟨b, rest, hb, hrest, (Except.ok.inj h).symm⟩
    · rintro ⟨b, rest, hb, hrest, rfl⟩
      exact ⟨b, hb, rest, hrest, rfl⟩

/-- What stands at a position of the second list has its partner there in the first one. -/
theorem exists_getElem?_left {α β : Type} {R : α → β → Prop} {l : List α} {l' : List β}
    (h : List.Forall₂ R l l') {i : Nat} {b : β} (hb : l'[i]? = some b) :
    ∃ a, l[i]? = some a ∧ R a b := by
  induction h generalizing i with
  | nil => cases hb
  | @cons a b' l l' hab _ ih =>
    cases i with
    | zero =>
      obtain rfl := Option.some.inj hb
      exact ⟨a, rfl, hab⟩
    | succ i => exact ih hb

/-- The results of a traversal come from the elements of the list. -/
theorem exists_of_mapM {ε α β : Type} {f : α → Except ε β} {as : List α} {bs : List β}
    (h : as.mapM f = .ok bs) : ∀ b ∈ bs, ∃ a ∈ as, f a = .ok b := by
  intro b hb
  obtain ⟨i, hi⟩ := List.mem_iff_getElem?.mp hb
  obtain ⟨a, ha, hab⟩ := exists_getElem?_left (mapM_eq_ok_iff.mp h) hi
  exact ⟨a, List.mem_of_getElem? ha, hab⟩

namespace Source

variable {locals : List Local} {s : String}

/-! ## §2 Parts of statements -/

/-- A variable is looked up among the locals. -/
private theorem locals_variableNamed {v : Local} (h : variableNamed locals s = .ok v) :
    [v] ⊆ locals := by
  obtain ⟨name, -, h⟩ := bind_eq_ok_iff.mp h
  unfold lookupLocal at h
  split at h
  · rename_i w hfind
    obtain rfl := Except.ok.inj h
    exact List.cons_subset.mpr ⟨List.mem_of_find?_eq_some hfind, List.nil_subset _⟩
  · cases h

private theorem locals_operand {o : Operand} (h : operand locals s = .ok o) :
    o.locals ⊆ locals := by
  -- a truth value, `null` and a literal mention nothing
  unfold operand at h
  split at h
  · obtain rfl := Except.ok.inj h
    exact List.nil_subset _
  split at h
  · obtain rfl := Except.ok.inj h
    exact List.nil_subset _
  split at h
  · obtain rfl := Except.ok.inj h
    exact List.nil_subset _
  · obtain ⟨v, hv, h⟩ := bind_eq_ok_iff.mp h
    obtain rfl := Except.ok.inj h
    exact locals_variableNamed hv

private theorem locals_arguments {args : List Operand} (h : arguments locals s = .ok args) :
    args.flatMap Operand.locals ⊆ locals := by
  unfold arguments at h
  split at h
  · obtain rfl := Except.ok.inj h
    exact List.nil_subset _
  · intro v hv
    obtain ⟨arg, harg, hv⟩ := List.mem_flatMap.mp hv
    obtain ⟨text, -, htext⟩ := exists_of_mapM h arg harg
    exact locals_operand htext hv

private theorem locals_call {c : Call} (h : call locals s = .ok c) : c.locals ⊆ locals := by
  unfold call at h
  obtain ⟨⟨callee, inner⟩, -, h⟩ := bind_eq_ok_iff.mp h
  obtain ⟨args, hargs, h⟩ := bind_eq_ok_iff.mp h
  split at h
  · obtain ⟨receiver, hreceiver, h⟩ := bind_eq_ok_iff.mp h
    obtain ⟨method, -, h⟩ := bind_eq_ok_iff.mp h
    obtain rfl := Except.ok.inj h
    exact List.append_subset.mpr ⟨locals_variableNamed hreceiver, locals_arguments hargs⟩
  · obtain ⟨method, -, h⟩ := bind_eq_ok_iff.mp h
    obtain rfl := Except.ok.inj h
    exact locals_arguments hargs

private theorem locals_place {target : Place} (h : place locals s = .ok target) :
    target.locals ⊆ locals := by
  unfold place at h
  split at h
  · obtain ⟨base, hbase, h⟩ := bind_eq_ok_iff.mp h
    obtain ⟨index, hindex, h⟩ := bind_eq_ok_iff.mp h
    obtain rfl := Except.ok.inj h
    exact List.append_subset.mpr ⟨locals_variableNamed hbase, locals_operand hindex⟩
  split at h
  · obtain ⟨base, hbase, h⟩ := bind_eq_ok_iff.mp h
    obtain ⟨name, -, h⟩ := bind_eq_ok_iff.mp h
    obtain rfl := Except.ok.inj h
    exact locals_variableNamed hbase
  · obtain ⟨v, hv, h⟩ := bind_eq_ok_iff.mp h
    obtain rfl := Except.ok.inj h
    exact locals_variableNamed hv

private theorem locals_simpleRhs {value : Rhs} (h : simpleRhs locals s = .ok value) :
    value.locals ⊆ locals := by
  unfold simpleRhs at h
  split at h
  · obtain rfl := Except.ok.inj h
    exact List.nil_subset _
  split at h
  · obtain ⟨o, ho, h⟩ := bind_eq_ok_iff.mp h
    obtain rfl := Except.ok.inj h
    exact locals_operand ho
  split at h
  · -- a read of a field or an element is not modeled, so no local is mentioned
    obtain ⟨base, -, h⟩ := bind_eq_ok_iff.mp h
    obtain rfl := Except.ok.inj h
    exact List.nil_subset _
  · obtain ⟨o, ho, h⟩ := bind_eq_ok_iff.mp h
    have hlocals := locals_operand ho
    cases o with
    | const n =>
      obtain rfl := Except.ok.inj h
      exact hlocals
    | var v =>
      obtain rfl := Except.ok.inj h
      exact hlocals

private theorem locals_rhs {value : Rhs} (h : rhs locals s = .ok value) :
    value.locals ⊆ locals := by
  unfold rhs at h
  split at h
  · obtain ⟨c, hc, h⟩ := bind_eq_ok_iff.mp h
    obtain rfl := Except.ok.inj h
    exact locals_call hc
  split at h
  · split at h
    · cases h
    · obtain ⟨l, hl, h⟩ := bind_eq_ok_iff.mp h
      obtain ⟨r, hr, h⟩ := bind_eq_ok_iff.mp h
      obtain rfl := Except.ok.inj h
      exact List.append_subset.mpr ⟨locals_operand hl, locals_operand hr⟩
  · exact locals_simpleRhs h
  · cases h

private theorem locals_assignment {left right : String} {i : Instruction}
    (h : assignment locals left right = .ok i) : i.locals ⊆ locals := by
  unfold assignment at h
  obtain ⟨target, htarget, h⟩ := bind_eq_ok_iff.mp h
  have hplace := locals_place htarget
  split at h
  · -- a constructor call, which only a local can receive
    split at h
    · obtain ⟨⟨className, inner⟩, -, h⟩ := bind_eq_ok_iff.mp h
      obtain ⟨className', -, h⟩ := bind_eq_ok_iff.mp h
      obtain ⟨args, hargs, h⟩ := bind_eq_ok_iff.mp h
      obtain rfl := Except.ok.inj h
      exact List.append_subset.mpr ⟨hplace, locals_arguments hargs⟩
    · cases h
  · obtain ⟨value, hvalue, h⟩ := bind_eq_ok_iff.mp h
    obtain rfl := Except.ok.inj h
    exact List.append_subset.mpr ⟨hplace, locals_rhs hvalue⟩

/-! ## §3 Statements -/

/-- A statement mentions declared locals only. -/
theorem locals_statement {i : Instruction} {label : Option String}
    (h : statement locals s = .ok (i, label)) : i.locals ⊆ locals := by
  unfold statement at h
  split at h
  · split at h
    · cases h
    · obtain ⟨l, hl, h⟩ := bind_eq_ok_iff.mp h
      obtain ⟨r, hr, h⟩ := bind_eq_ok_iff.mp h
      obtain ⟨rfl, -⟩ := Prod.mk.inj (Except.ok.inj h)
      exact List.append_subset.mpr ⟨locals_operand hl, locals_operand hr⟩
  · cases h
  · obtain ⟨rfl, -⟩ := Prod.mk.inj (Except.ok.inj h)
    exact List.nil_subset _
  · obtain ⟨rfl, -⟩ := Prod.mk.inj (Except.ok.inj h)
    exact List.nil_subset _
  · obtain ⟨value, -, h⟩ := bind_eq_ok_iff.mp h
    obtain ⟨rfl, -⟩ := Prod.mk.inj (Except.ok.inj h)
    exact List.nil_subset _
  · obtain ⟨rfl, -⟩ := Prod.mk.inj (Except.ok.inj h)
    exact List.nil_subset _
  · split at h
    · obtain ⟨assigned, hassigned, h⟩ := bind_eq_ok_iff.mp h
      obtain ⟨rfl, -⟩ := Prod.mk.inj (Except.ok.inj h)
      exact locals_assignment hassigned
    split at h
    · obtain ⟨c, hc, h⟩ := bind_eq_ok_iff.mp h
      obtain ⟨rfl, -⟩ := Prod.mk.inj (Except.ok.inj h)
      exact locals_call hc
    · cases h

/-! ## §4 Methods -/

/-- The declarations of a method up to some line. -/
structure MethodDraft.Declared (m : MethodDraft) : Prop where
  names : (m.locals.map (·.name)).Nodup
  params : m.params ⊆ m.locals
  statements : ∀ s ∈ m.statements, s.instruction.locals ⊆ m.locals

namespace MethodDraft

variable {m m' : MethodDraft} {line : Nat}

/-- A method starts with `this` as its only local. -/
private theorem declared_begin (className name : String) (line : Nat) :
    (begin className name line).Declared where
  names := List.nodup_singleton _
  params := List.nil_subset _
  statements _ hs := absurd hs List.not_mem_nil

/-- A declaration adds a local under a new name. -/
theorem Declared.declare (hm : m.Declared) {isParam : Bool} {type name : String}
    (h : m.declare isParam type name = .ok m') : m'.Declared := by
  unfold MethodDraft.declare at h
  obtain ⟨ty, -, h⟩ := bind_eq_ok_iff.mp h
  obtain ⟨name', -, h⟩ := bind_eq_ok_iff.mp h
  split at h
  · cases h
  · rename_i hfresh
    obtain rfl := Except.ok.inj h
    have hnew : name' ∉ m.locals.map (·.name) := by simpa using hfresh
    refine ⟨?_, ?_, fun s hs => List.Subset.trans (hm.statements s hs)
      (List.subset_append_left _ _)⟩
    · rw [List.map_append]
      exact List.concat_eq_append ▸ hm.names.concat hnew
    · have hparams := List.Subset.trans hm.params (List.subset_append_left m.locals [⟨name', ty⟩])
      dsimp only
      split
      · exact List.append_subset.mpr ⟨hparams, List.subset_append_right _ _⟩
      · exact hparams

/-- What a line of a method keeps. -/
theorem Declared.addLine (hm : m.Declared) (h : m.addLine line s = .ok m') : m'.Declared := by
  -- a line that is neither a declaration nor a label is a statement
  have hstatement : m.addStatement line s = .ok m' → m'.Declared := by
    intro h
    obtain ⟨⟨i, label⟩, hread, h⟩ := bind_eq_ok_iff.mp h
    obtain rfl := Except.ok.inj h
    refine ⟨hm.names, hm.params, fun t ht => ?_⟩
    rcases List.mem_append.mp ht with ht | ht
    · exact hm.statements t ht
    · rw [List.mem_singleton.mp ht]
      exact locals_statement hread
  unfold MethodDraft.addLine at h
  split at h
  · exact hm.declare h
  · exact hm.declare h
  · split at h
    · -- a label declares nothing
      obtain ⟨label, -, h⟩ := bind_eq_ok_iff.mp h
      split at h
      · cases h
      · obtain rfl := Except.ok.inj h
        exact ⟨hm.names, hm.params, hm.statements⟩
    · exact hstatement h
  · exact hstatement h

/-- Resolving a label leaves the instruction as it is. -/
theorem instruction_resolve {t : DraftStatement} {linked : Statement}
    (h : m.resolve t = .ok linked) : linked.instruction = t.instruction := by
  unfold resolve at h
  split at h
  · obtain rfl := Except.ok.inj h
    rfl
  split at h
  · obtain rfl := Except.ok.inj h
    rfl
  · cases h

/-- The procedure has the declarations of the method. -/
theorem Declared.finish (hm : m.Declared) {p : Procedure} (h : m.finish = .ok p) :
    p.Declared := by
  unfold MethodDraft.finish at h
  obtain ⟨statements, hresolved, h⟩ := bind_eq_ok_iff.mp h
  split at h
  · cases h
  · rename_i graph hgraph
    obtain rfl := Except.ok.inj h
    refine ⟨hm.names, hm.params, fun i hi => ?_⟩
    rw [(FlowGraph.of_build hgraph).1] at hi
    obtain ⟨linked, hlinked, rfl⟩ := List.mem_map.mp hi
    rcases List.mem_append.mp hlinked with hlinked | hlinked
    · obtain ⟨t, ht, hresolve⟩ := exists_of_mapM hresolved linked hlinked
      rw [instruction_resolve hresolve]
      exact hm.statements t ht
    · -- the return at the end, if one was added
      unfold finalReturn at hlinked
      dsimp only at hlinked
      split at hlinked
      · rw [List.mem_singleton.mp hlinked]
        exact List.nil_subset _
      · cases hlinked

end MethodDraft

/-! ## §5 Classes -/

/-- The declarations of what has been read up to some line. -/
def Progress.Declared : Progress → Prop
  | start => True
  | inClass c => ∀ p ∈ c.procedures, p.Declared
  | inMethod c m => (∀ p ∈ c.procedures, p.Declared) ∧ m.Declared

/-- Changing errors does not change results. -/
theorem eq_ok_of_mapError {ε ε' α : Type} {f : ε → ε'} {x : Except ε α} {a : α}
    (h : x.mapError f = .ok a) : x = .ok a := by
  cases x with
  | error fault => cases h
  | ok b => exact congrArg Except.ok (Except.ok.inj h)

theorem eq_ok_of_toOption {ε α : Type} {x : Except ε α} {a : α} (h : x.toOption = some a) :
    x = .ok a := by
  cases x with
  | error fault => cases h
  | ok b => exact congrArg Except.ok (Option.some.inj h)

namespace Progress

variable {progress next : Progress} {line : Nat} {c : Class}

private theorem declared_readHeader (h : readHeader s = .ok next) : next.Declared := by
  unfold readHeader at h
  split at h
  · obtain ⟨name, -, h⟩ := bind_eq_ok_iff.mp h
    obtain rfl := Except.ok.inj h
    exact nofun
  · cases h

private theorem declared_readMember (hc : (inClass c).Declared)
    (h : readMember c line s = .ok next) :
    next.Declared := by
  unfold readMember at h
  split at h
  · obtain ⟨name, -, h⟩ := bind_eq_ok_iff.mp h
    split at h
    · cases h
    · obtain ⟨ty, -, h⟩ := bind_eq_ok_iff.mp h
      obtain rfl := Except.ok.inj h
      exact hc
  · obtain ⟨name, -, h⟩ := bind_eq_ok_iff.mp h
    split at h
    · cases h
    · obtain rfl := Except.ok.inj h
      exact ⟨hc, MethodDraft.declared_begin _ _ _⟩
  · cases h

/-- What a line keeps. -/
theorem Declared.readLine (hprogress : progress.Declared)
    (h : readLine progress line s = .ok next) : next.Declared := by
  unfold Source.readLine at h
  split at h
  · exact declared_readHeader (eq_ok_of_mapError h)
  · exact declared_readMember hprogress (eq_ok_of_mapError h)
  · obtain ⟨hprocedures, hm⟩ := hprogress
    split at h
    · obtain ⟨p, hp, h⟩ := bind_eq_ok_iff.mp h
      obtain rfl := Except.ok.inj h
      exact List.forall_mem_append.mpr
        ⟨hprocedures, List.forall_mem_singleton.mpr (hm.finish hp)⟩
    · obtain ⟨m', hm', rfl⟩ := map_eq_ok_iff.mp (eq_ok_of_mapError h)
      exact ⟨hprocedures, hm.addLine hm'⟩

/-- What every line keeps is kept by all lines. -/
theorem of_readLines {P : Progress → Prop}
    (hline : ∀ {progress next line s}, P progress → readLine progress line s = .ok next → P next)
    (hprogress : P progress) {lines : List String} (h : readLines progress line lines = .ok next) :
    P next := by
  induction lines generalizing progress line with
  | nil => exact Except.ok.inj h ▸ hprogress
  | cons s lines ih =>
    unfold Source.readLines at h
    dsimp only at h
    -- a blank line is skipped
    split at h
    · exact ih hprogress h
    · obtain ⟨progress', hread, h⟩ := bind_eq_ok_iff.mp h
      exact ih (hline hprogress hread) h

/-- What every line keeps holds of the class of an accepted text. -/
theorem of_parse {P : Progress → Prop} (hstart : P start)
    (hline : ∀ {progress next line s}, P progress → readLine progress line s = .ok next → P next)
    {text : String} (h : Class.parse text = .ok c) : P (inClass c) := by
  obtain ⟨progress, hlines, h⟩ := bind_eq_ok_iff.mp h
  have hprogress := of_readLines hline hstart hlines
  split at h
  · cases h
  · obtain rfl := Except.ok.inj h
    exact hprogress
  · cases h

end Progress

end Source

/-- The procedures of an accepted class. -/
theorem Class.declared_of_parse {text : String} {c : Class} (h : Class.parse text = .ok c) :
    ∀ p ∈ c.procedures, p.Declared := by
  have hstart : Source.Progress.start.Declared := trivial
  exact Source.Progress.of_parse hstart Source.Progress.Declared.readLine h

end RangeGuard
