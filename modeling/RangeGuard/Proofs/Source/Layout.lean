import Mathlib.Data.List.Forall2
import RangeGuard.Proofs.Source.Declarations
import RangeGuard.Proofs.Source.Faults

/-!
# From the lines of a method to its graph

The statements of a method are its lines that neither declare a local nor set a label, and the nodes
of its graph are those statements in the order of their lines. A return follows if the body would
otherwise run out: there is no statement, or a label stands after the last one. The one branch edge
of a jump goes to the statement that follows the line of its label.

A label is turned into a number when its line is read, long before or after the jumps to it. The
number is that of the statements read so far, and since statements are only added at the end, it
stays the number of the statement that follows. At the end of the method a label is either the
number of a statement or that of the return, so linking always succeeds.

## Organisation

What a line does is said by its words alone (§1), without reference to the readers. The readers are
then shown to do that: a line adds one thing to the method (`Source.MethodDraft.Grows`, §3), and all
that is known of a method (`Source.MethodDraft.LaidOut`, §4) is proved by cases on what is added.
The end of a method (§5) turns this into the layout of the procedure.
-/

namespace RangeGuard

namespace Source

/-! ## §1 What a line does -/

/-- The line declares a parameter or another local. -/
def isDeclaration (s : String) : Bool :=
  match Text.words s with
  | ["param", _, _] => true
  | ["local", _, _] => true
  | _ => false

/-- The label that the line sets: its only word without the colons at the end. -/
def setLabel? (s : String) : Option String :=
  match Text.words s with
  | [word] =>
    if Text.endsWith word ':' then some (String.ofList (Text.dropEndWhile (· = ':') word.toList))
    else none
  | _ => none

/-- The line is a statement. -/
def isStatement (s : String) : Bool := !isDeclaration s && (setLabel? s).isNone

/-- The label to which the statement on the line jumps. -/
def jumpLabel? (s : String) : Option String :=
  match Text.words s with
  | ["if", _, _, _, "goto", label] => some label
  | ["goto", label] => some label
  | _ => none

/-- The statements among the lines of a body. -/
def statementsOf (body : List String) : List String := body.filter isStatement

/-- The lines after the last statement, the last one first. -/
def trailing (body : List String) : List String := body.reverse.takeWhile fun s => !isStatement s

/-- There is no statement, or a label stands after the last one. -/
def runsOut (body : List String) : Bool :=
  (statementsOf body).isEmpty || (trailing body).any fun s => (setLabel? s).isSome

/-- The instruction is what the line says, read against some of the locals: those declared before
it. -/
def ReadAs (locals : List Local) (s : String) (i : Instruction) : Prop :=
  ∃ scope, scope <+: locals ∧ statement scope s = .ok (i, jumpLabel? s)

end Source

/-- Node `t` is the statement that follows the line on which the label is set: the first statement
after that line or, if there is none, the return at the end. -/
def Procedure.Follows (p : Procedure) (body : List String) (label : String) (t : Node) : Prop :=
  ∃ before mark after, body = before ++ mark :: after ∧ Source.setLabel? mark = some label ∧
    t = (Source.statementsOf before).length ∧
    match Source.statementsOf after with
    | next :: _ => Source.ReadAs p.locals next (p.graph.instruction t)
    | [] => t + 1 = p.graph.size ∧ p.graph.instruction t = .ret

/-- The procedure lies in the lines between its first and its last one. -/
structure Procedure.LaidOut (p : Procedure) (body : List String) : Prop where
  /-- No label is set twice. -/
  labels : (body.filterMap Source.setLabel?).Nodup
  /-- The nodes are the statements in the order of their lines, and a return if the body runs out.
  -/
  nodes : ∃ read, List.Forall₂ (Source.ReadAs p.locals) (Source.statementsOf body) read ∧
    p.graph.nodes = read ++ if Source.runsOut body then [.ret] else []
  /-- A jump has one branch edge, to the statement that follows its label. -/
  jumps : ∀ i, (p.graph.instruction i).isJump → ∃ s label t,
    (Source.statementsOf body)[i]? = some s ∧ Source.jumpLabel? s = some label ∧
    p.Follows body label t ∧ p.graph.branchEdges i = [⟨i, t, .branch⟩]

namespace Source

variable {s : String} {body : List String}

private theorem not_isStatement_of_setLabel? {label : String} (h : setLabel? s = some label) :
    isStatement s = false := by
  simp [isStatement, h]

private theorem statementsOf_concat (body : List String) (s : String) :
    statementsOf (body ++ [s]) =
      if isStatement s then statementsOf body ++ [s] else statementsOf body := by
  cases hs : isStatement s <;> simp [statementsOf, hs]

/-- The line of a label is not a statement. -/
private theorem statementsOf_mark {before after : List String} {mark label : String}
    (h : setLabel? mark = some label) :
    statementsOf (before ++ mark :: after) = statementsOf before ++ statementsOf after := by
  simp [statementsOf, not_isStatement_of_setLabel? h]

private theorem trailing_concat (body : List String) (s : String) :
    trailing (body ++ [s]) = if isStatement s then [] else s :: trailing body := by
  cases hs : isStatement s <;> simp [trailing, hs]

/-- Further declarations do not change what a line was read as. -/
theorem ReadAs.mono {locals more : List Local} {i : Instruction} (h : ReadAs locals s i)
    (hmore : locals <+: more) : ReadAs more s i := by
  obtain ⟨scope, hscope, hread⟩ := h
  exact ⟨scope, hscope.trans hmore, hread⟩

/-! ## §2 Statements and their labels -/

/-- An assignment does not jump. -/
private theorem not_isJump_assignment {locals : List Local} {left right : String} {i : Instruction}
    (h : assignment locals left right = .ok i) : i.isJump = false := by
  unfold assignment at h
  obtain ⟨target, -, h⟩ := bind_eq_ok_iff.mp h
  split at h
  · split at h
    · obtain ⟨⟨className, inner⟩, -, h⟩ := bind_eq_ok_iff.mp h
      obtain ⟨className', -, h⟩ := bind_eq_ok_iff.mp h
      obtain ⟨args, -, h⟩ := bind_eq_ok_iff.mp h
      obtain rfl := Except.ok.inj h
      rfl
    · cases h
  · obtain ⟨value, -, h⟩ := bind_eq_ok_iff.mp h
    obtain rfl := Except.ok.inj h
    rfl

/-- The label that comes with an instruction is the one on the line, and exactly jumps come with
one. -/
theorem label_statement {locals : List Local} {i : Instruction} {label : Option String}
    (h : statement locals s = .ok (i, label)) : label = jumpLabel? s ∧ i.isJump = label.isSome := by
  unfold statement at h
  unfold jumpLabel?
  split at h
  · rename_i hwords
    rw [hwords]
    split at h
    · cases h
    · obtain ⟨l, -, h⟩ := bind_eq_ok_iff.mp h
      obtain ⟨r, -, h⟩ := bind_eq_ok_iff.mp h
      obtain ⟨rfl, rfl⟩ := Prod.mk.inj (Except.ok.inj h)
      exact ⟨rfl, rfl⟩
  · cases h
  · rename_i hwords
    rw [hwords]
    obtain ⟨rfl, rfl⟩ := Prod.mk.inj (Except.ok.inj h)
    exact ⟨rfl, rfl⟩
  · rename_i hwords
    rw [hwords]
    obtain ⟨rfl, rfl⟩ := Prod.mk.inj (Except.ok.inj h)
    exact ⟨rfl, rfl⟩
  · rename_i hwords
    rw [hwords]
    obtain ⟨value, -, h⟩ := bind_eq_ok_iff.mp h
    obtain ⟨rfl, rfl⟩ := Prod.mk.inj (Except.ok.inj h)
    exact ⟨rfl, rfl⟩
  · rename_i hwords
    rw [hwords]
    obtain ⟨rfl, rfl⟩ := Prod.mk.inj (Except.ok.inj h)
    exact ⟨rfl, rfl⟩
  · -- assignments and calls: the words are of neither form with a label
    rename_i hbranch hif hgoto _ _ _
    split
    · rename_i hwords
      exact absurd hwords (hbranch _ _ _ _)
    · rename_i hwords
      exact absurd hwords (hgoto _)
    split at h
    · obtain ⟨assigned, hassigned, h⟩ := bind_eq_ok_iff.mp h
      obtain ⟨rfl, rfl⟩ := Prod.mk.inj (Except.ok.inj h)
      exact ⟨rfl, not_isJump_assignment hassigned⟩
    split at h
    · obtain ⟨c, -, h⟩ := bind_eq_ok_iff.mp h
      obtain ⟨rfl, rfl⟩ := Prod.mk.inj (Except.ok.inj h)
      exact ⟨rfl, rfl⟩
    · cases h

/-! ## §3 Lines of a method -/

/-- An identifier is taken as it is written. -/
theorem eq_of_identifier {name : String} (h : identifier s = .ok name) : name = s := by
  unfold identifier at h
  split at h
  · exact (Except.ok.inj h).symm
  · cases h

namespace MethodDraft

variable {m m' : MethodDraft} {line : Nat}

/-- What one line adds to a method. -/
inductive Grows (m : MethodDraft) (line : Nat) (s : String) : MethodDraft → Prop
  /-- A declaration adds a local, which may be a parameter. -/
  | declaration (hs : isStatement s = false) (hlabel : setLabel? s = none)
      (params : List Local) (v : Local) :
      Grows m line s { m with params := params, locals := m.locals ++ [v] }
  /-- A label gets the number of the statements so far; it is a new one. -/
  | label (label : String) (hlabel : setLabel? s = some label)
      (hnew : label ∉ m.labels.map (·.1)) :
      Grows m line s { m with labels := m.labels ++ [(label, m.statements.length)] }
  /-- A statement is read against the locals so far. -/
  | statement (hs : isStatement s = true) (i : Instruction)
      (hread : statement m.locals s = .ok (i, jumpLabel? s))
        (hjump : i.isJump = (jumpLabel? s).isSome) :
      Grows m line s { m with statements := m.statements ++ [⟨i, jumpLabel? s, line⟩] }

private theorem grows_declare {isParam : Bool} {type name : String}
    (hs : isStatement s = false) (hlabel : setLabel? s = none)
    (h : m.declare isParam type name = .ok m') : m.Grows line s m' := by
  unfold declare at h
  obtain ⟨ty, -, h⟩ := bind_eq_ok_iff.mp h
  obtain ⟨name', -, h⟩ := bind_eq_ok_iff.mp h
  split at h
  · cases h
  · obtain rfl := Except.ok.inj h
    exact .declaration hs hlabel _ _

private theorem grows_addLabel {word : String} (hwords : Text.words s = [word])
    (hcolon : Text.endsWith word ':') (h : m.addLabel word = .ok m') : m.Grows line s m' := by
  unfold addLabel at h
  obtain ⟨label, hlabel, h⟩ := bind_eq_ok_iff.mp h
  have hset : setLabel? s = some label := by
    simp only [setLabel?, hwords, hcolon, if_true, eq_of_identifier hlabel]
  split at h
  · cases h
  · rename_i hnew
    obtain rfl := Except.ok.inj h
    exact .label label hset (by simpa using hnew)

private theorem grows_addStatement (hs : isStatement s = true)
    (h : m.addStatement line s = .ok m') :
    m.Grows line s m' := by
  obtain ⟨⟨i, label⟩, hread, h⟩ := bind_eq_ok_iff.mp h
  obtain rfl := Except.ok.inj h
  obtain ⟨rfl, hjump⟩ := label_statement hread
  exact .statement hs i hread hjump

/-- Each line adds one thing, by what its words say. -/
theorem grows_addLine (h : m.addLine line s = .ok m') : m.Grows line s m' := by
  unfold addLine at h
  split at h
  · rename_i hwords
    exact grows_declare (by simp [isStatement, isDeclaration, hwords])
      (by simp [setLabel?, hwords]) h
  · rename_i hwords
    exact grows_declare (by simp [isStatement, isDeclaration, hwords])
      (by simp [setLabel?, hwords]) h
  · rename_i word hwords
    split at h
    · rename_i hcolon
      exact grows_addLabel hwords hcolon h
    · rename_i hcolon
      exact grows_addStatement (by simp [isStatement, isDeclaration, setLabel?, hwords, hcolon]) h
  · rename_i hparam hlocal hword
    refine grows_addStatement ?_ h
    have hdeclaration : isDeclaration s = false := by
      unfold isDeclaration
      split
      · rename_i hwords
        exact absurd hwords (hparam _ _)
      · rename_i hwords
        exact absurd hwords (hlocal _ _)
      · rfl
    have hset : setLabel? s = none := by
      unfold setLabel?
      split
      · rename_i hwords
        exact absurd hwords (hword _)
      · rfl
    simp [isStatement, hdeclaration, hset]

/-! ## §4 The layout of a method up to some line -/

/-- The label is set on a line of the body with `t` statements before it. -/
def SetAt (body : List String) (label : String) (t : Nat) : Prop :=
  ∃ before mark after, body = before ++ mark :: after ∧ setLabel? mark = some label ∧
    t = (statementsOf before).length

/-- Further lines do not move a label. -/
theorem SetAt.concat {label : String} {t : Nat} (h : SetAt body label t) (s : String) :
    SetAt (body ++ [s]) label t := by
  obtain ⟨before, mark, after, rfl, hmark, ht⟩ := h
  exact ⟨before, mark, after ++ [s], by simp, hmark, ht⟩

/-- A label has no number beyond the statements of the body. -/
theorem SetAt.le {label : String} {t : Nat} (h : SetAt body label t) :
    t ≤ (statementsOf body).length := by
  obtain ⟨before, mark, after, rfl, hmark, rfl⟩ := h
  rw [statementsOf_mark hmark, List.length_append]
  exact Nat.le_add_right _ _

/-- The method has been read from the lines of the body. -/
structure LaidOut (m : MethodDraft) (body : List String) : Prop where
  /-- The statements are those of the body. -/
  statements : List.Forall₂ (fun s t => ReadAs m.locals s t.instruction ∧ t.label = jumpLabel? s ∧
    t.instruction.isJump = t.label.isSome) (statementsOf body) m.statements
  /-- The labels are those of the body, and none is set twice. -/
  labels : m.labels.map (·.1) = body.filterMap setLabel?
  nodup : (m.labels.map (·.1)).Nodup
  /-- A label has the number of the statements before it. -/
  placed : ∀ entry ∈ m.labels, SetAt body entry.1 entry.2
  /-- A label has the number of the next statement if and only if it stands after the last one. -/
  trailing : m.labels.any (fun entry => entry.2 = m.statements.length) =
    (trailing body).any fun s => (setLabel? s).isSome

/-- A method starts with no lines read. -/
theorem laidOut_begin (className name : String) (line : Nat) :
    (begin className name line).LaidOut [] where
  statements := .nil
  labels := rfl
  nodup := List.nodup_nil
  placed := nofun
  trailing := rfl

namespace LaidOut

private theorem length_statements (hm : m.LaidOut body) :
    m.statements.length = (statementsOf body).length :=
  hm.statements.length_eq.symm

/-- A label never has a number beyond that of the next statement. -/
theorem label_le (hm : m.LaidOut body) : ∀ entry ∈ m.labels, entry.2 ≤ m.statements.length := by
  intro entry hentry
  rw [hm.length_statements]
  exact (hm.placed entry hentry).le

/-- What a line keeps of the layout. -/
theorem addLine (hm : m.LaidOut body) (h : m.addLine line s = .ok m') :
    m'.LaidOut (body ++ [s]) := by
  have hplaced : ∀ entry ∈ m.labels, SetAt (body ++ [s]) entry.1 entry.2 :=
    fun entry hentry => (hm.placed entry hentry).concat s
  -- one case for each thing that a line can add; all fields but `trailing` follow it directly
  cases grows_addLine h with
  | declaration hs hlabel params v =>
    refine ⟨?_, ?_, hm.nodup, hplaced, ?_⟩
    · rw [statementsOf_concat, hs]
      exact hm.statements.imp fun _ _ h => ⟨h.1.mono (List.prefix_append _ _), h.2⟩
    · simp [hm.labels, hlabel]
    · rw [trailing_concat, hs]
      simp [hm.trailing, hlabel]
  | label label hlabel hnew =>
    have hs := not_isStatement_of_setLabel? hlabel
    refine ⟨?_, ?_, ?_, ?_, ?_⟩
    · rw [statementsOf_concat, hs]
      exact hm.statements
    · simp [hm.labels, hlabel]
    · rw [List.map_append]
      exact List.concat_eq_append ▸ hm.nodup.concat hnew
    · refine List.forall_mem_append.mpr ⟨hplaced, List.forall_mem_singleton.mpr ?_⟩
      exact ⟨body, s, [], rfl, hlabel, hm.length_statements⟩
    · rw [trailing_concat, hs]
      simp [hlabel]
  | statement hs i hread hjump =>
    have hlabel : setLabel? s = none := by
      simpa [isStatement] using (Bool.and_eq_true_iff.mp hs).2
    refine ⟨?_, ?_, hm.nodup, hplaced, ?_⟩
    · rw [statementsOf_concat, hs]
      refine List.rel_append hm.statements ?_
      exact .cons ⟨⟨m.locals, List.prefix_refl _, hread⟩, rfl, hjump⟩ .nil
    · simp [hm.labels, hlabel]
    · -- every label now stands before a statement
      have hbefore : m.labels.any (fun entry => entry.2 = m.statements.length + 1) = false := by
        refine List.any_eq_false.mpr fun entry hentry heq => ?_
        have hle := hm.label_le entry hentry
        rw [of_decide_eq_true heq] at hle
        exact Nat.not_succ_le_self _ hle
      rw [trailing_concat, hs]
      simpa using hbefore

end LaidOut

/-! ## §5 The end of a method -/

/-- The target of a label is looked up among the labels. -/
private theorem mem_labels_of_target? {label : String} {t : Node} (h : m.target? label = some t) :
    (label, t) ∈ m.labels := by
  unfold target? at h
  obtain ⟨entry, hfind, rfl⟩ := Option.map_eq_some_iff.mp h
  have hlabel := List.find?_some hfind
  rw [← of_decide_eq_true hlabel]
  exact List.mem_of_find?_eq_some hfind

/-- The target of a resolved jump is the number of its label. -/
theorem target_of_resolve {t : DraftStatement} {linked : Statement} {label : String}
    (h : m.resolve t = .ok linked) (hlabel : t.label = some label) :
    ∃ target, linked.jump = some target ∧ (label, target) ∈ m.labels := by
  unfold resolve at h
  rw [hlabel] at h
  dsimp only at h
  split at h
  · rename_i target htarget
    obtain rfl := Except.ok.inj h
    exact ⟨target, rfl, mem_labels_of_target? htarget⟩
  · cases h

/-- Resolving fails only if the label is missing, at the line of the jump. -/
private theorem failsOnly_resolve (t : DraftStatement) :
    FailsOnly (fun e => e.cause.IsTextual ∧ e.line = t.line) (m.resolve t) := by
  unfold resolve
  split
  · exact .ok _
  split
  · exact .ok _
  · exact .error ⟨trivial, rfl⟩

private theorem map_instruction_of_mapM {drafts : List DraftStatement} {linked : List Statement}
    (h : drafts.mapM m.resolve = .ok linked) :
    linked.map (·.instruction) = drafts.map (·.instruction) := by
  have hlinked := mapM_eq_ok_iff.mp h
  clear h
  induction hlinked with
  | nil => rfl
  | cons hresolve _ ih => rw [List.map_cons, List.map_cons, instruction_resolve hresolve, ih]

/-- What a finished method is made from. -/
theorem finish_eq_ok {p : Procedure} (h : m.finish = .ok p) :
    ∃ linked graph, m.statements.mapM m.resolve = .ok linked ∧
      FlowGraph.build (linked ++ m.finalReturn) = .ok graph ∧
        p = ⟨m.name, m.params, m.locals, graph⟩ := by
  obtain ⟨linked, hlinked, h⟩ := bind_eq_ok_iff.mp h
  split at h
  · cases h
  · rename_i graph hgraph
    exact ⟨linked, graph, hlinked, hgraph, (Except.ok.inj h).symm⟩

namespace LaidOut

/-- The return is added exactly if the body runs out. -/
private theorem finalReturn_eq (hm : m.LaidOut body) :
    m.finalReturn = if runsOut body then [⟨.ret, none⟩] else [] := by
  have hempty : m.statements.length = 0 ↔ (statementsOf body).isEmpty := by
    rw [hm.length_statements, List.isEmpty_iff_length_eq_zero]
  simp only [finalReturn, runsOut, hm.trailing, hempty, Bool.or_eq_true]

/-- A label after the last statement has a return added. -/
theorem runsOut_of_label (hm : m.LaidOut body) {label : String}
    (h : (label, m.statements.length) ∈ m.labels) : runsOut body := by
  have hlast : m.labels.any fun entry => entry.2 = m.statements.length :=
    List.any_eq_true.mpr ⟨_, h, decide_eq_true rfl⟩
  rw [hm.trailing] at hlast
  rw [runsOut, hlast, Bool.or_true]

/-- Every label has the number of a statement or of the return at the end. -/
theorem label_lt (hm : m.LaidOut body) {label : String} {t : Node} (h : (label, t) ∈ m.labels) :
    t < m.statements.length + m.finalReturn.length := by
  -- a label has at most the number of the next statement, and then the return is there
  rcases Nat.lt_or_eq_of_le (hm.label_le _ h) with hlt | rfl
  · exact Nat.lt_add_right _ hlt
  · rw [hm.finalReturn_eq, if_pos (hm.runsOut_of_label h)]
    exact Nat.lt_succ_self _

/-- The statements of a method can be linked, once every label is known. -/
theorem exists_build (hm : m.LaidOut body) {linked : List Statement}
    (h : m.statements.mapM m.resolve = .ok linked) :
    ∃ graph, FlowGraph.build (linked ++ m.finalReturn) = .ok graph := by
  have hlinked := mapM_eq_ok_iff.mp h
  have hlength : (linked ++ m.finalReturn).length = m.statements.length + m.finalReturn.length := by
    rw [List.length_append, hlinked.length_eq]
  apply FlowGraph.exists_build
  · -- a body without statements has the return
    intro hnil
    obtain ⟨rfl, hreturn⟩ := List.append_eq_nil_iff.mp hnil
    have hzero : m.statements.length = 0 := hlinked.length_eq
    rw [finalReturn, if_pos (Or.inl hzero)] at hreturn
    cases hreturn
  · intro s hs hjump
    rw [hlength]
    rcases List.mem_append.mp hs with hs | hs
    · -- a jump was resolved to the number of its label
      obtain ⟨i, hi⟩ := List.mem_iff_getElem?.mp hs
      obtain ⟨t, ht, hresolve⟩ := exists_getElem?_left hlinked hi
      obtain ⟨_, -, -, -, hlabel⟩ := exists_getElem?_left hm.statements ht
      rw [instruction_resolve hresolve, hlabel] at hjump
      obtain ⟨label, hlabel⟩ := Option.isSome_iff_exists.mp hjump
      obtain ⟨target, htarget, hmem⟩ := target_of_resolve hresolve hlabel
      exact ⟨target, hm.label_lt hmem, htarget⟩
    · -- the return at the end does not jump
      rw [hm.finalReturn_eq] at hs
      split at hs
      · rw [List.mem_singleton.mp hs] at hjump
        cases hjump
      · cases hs

/-- A method that was read line by line fails at its end only if a label is missing, at the line of
the jump. -/
theorem failsOnly_finish (hm : m.LaidOut body) :
    FailsOnly (fun e => e.cause.IsTextual ∧ ∃ t ∈ m.statements, e.line = t.line) m.finish := by
  have hresolve : FailsOnly (fun e => e.cause.IsTextual ∧ ∃ t ∈ m.statements, e.line = t.line)
      (m.statements.mapM m.resolve) := by
    refine .mapM fun t ht => (failsOnly_resolve t).imp ?_
    rintro fault ⟨hcause, hline⟩
    exact ⟨hcause, t, ht, hline⟩
  refine hresolve.bind fun linked hlinked => ?_
  -- linking does not fail once every label is known
  obtain ⟨graph, hgraph⟩ := hm.exists_build hlinked
  rw [hgraph]
  exact .ok _

/-- The nodes are the statements and the return. -/
private theorem nodes_finish (hm : m.LaidOut body) {p : Procedure} (h : m.finish = .ok p) :
    p.graph.nodes = m.statements.map (·.instruction) ++ if runsOut body then [.ret] else [] := by
  obtain ⟨linked, graph, hlinked, hgraph, rfl⟩ := finish_eq_ok h
  rw [(FlowGraph.of_build hgraph).1, List.map_append, map_instruction_of_mapM hlinked,
    hm.finalReturn_eq]
  split <;> rfl

/-- Statement `i` is at node `i`. -/
private theorem instruction_finish (hm : m.LaidOut body) {p : Procedure} (h : m.finish = .ok p)
    {i : Node} {t : DraftStatement} (ht : m.statements[i]? = some t) :
    p.graph.instruction i = t.instruction := by
  have hi : i < (m.statements.map (·.instruction)).length := by
    rw [List.length_map]
    exact (List.getElem?_eq_some_iff.mp ht).1
  rw [FlowGraph.instruction, hm.nodes_finish h, List.getD_eq_getElem?_getD,
    List.getElem?_append_left hi, List.getElem?_map, ht]
  rfl

/-- A label stands right before the node of its number. -/
theorem follows (hm : m.LaidOut body) {p : Procedure} (h : m.finish = .ok p) {label : String}
    {t : Node} (hmem : (label, t) ∈ m.labels) : p.Follows body label t := by
  obtain ⟨before, mark, after, hbody, hmark, rfl⟩ := hm.placed _ hmem
  have hstatements : statementsOf body = statementsOf before ++ statementsOf after := by
    rw [hbody, statementsOf_mark hmark]
  refine ⟨before, mark, after, hbody, hmark, rfl, ?_⟩
  split
  · -- as many statements stand before the next one as before the label
    rename_i next rest hafter
    have hnext : (statementsOf body)[(statementsOf before).length]? = some next := by
      rw [hstatements, hafter, List.getElem?_append_right (Nat.le_refl _), Nat.sub_self,
        List.getElem?_cons_zero]
    obtain ⟨t, ht, hread, -⟩ := exists_getElem?_left (List.Forall₂.flip hm.statements) hnext
    obtain ⟨linked, graph, -, -, rfl⟩ := finish_eq_ok h
    exact hm.instruction_finish h ht ▸ hread
  · -- all statements stand before the label, so a return was added
    rename_i hafter
    have hlast : (statementsOf before).length = m.statements.length := by
      rw [hm.length_statements, hstatements, hafter, List.append_nil]
    have hnodes := hm.nodes_finish h
    rw [if_pos (hm.runsOut_of_label (hlast ▸ hmem))] at hnodes
    rw [FlowGraph.size, FlowGraph.instruction, hnodes, hlast]
    simp

/-- A node that jumps is not the return at the end. -/
theorem exists_of_isJump (hm : m.LaidOut body) {p : Procedure} (h : m.finish = .ok p) {i : Node}
    (hjump : (p.graph.instruction i).isJump) : ∃ t, m.statements[i]? = some t := by
  cases ht : m.statements[i]? with
  | some t => exact ⟨t, rfl⟩
  | none =>
    have hle : (m.statements.map (·.instruction)).length ≤ i := by
      rw [List.length_map]
      exact List.getElem?_eq_none_iff.mp ht
    rw [FlowGraph.instruction, hm.nodes_finish h, List.getD_eq_getElem?_getD,
      List.getElem?_append_right hle] at hjump
    split at hjump
    · -- the return itself, or no node at all
      cases hat : i - (m.statements.map (·.instruction)).length with
      | zero =>
        rw [hat] at hjump
        cases hjump
      | succ k =>
        rw [hat] at hjump
        cases hjump
    · cases hjump

/-- The layout of the procedure. -/
theorem finish (hm : m.LaidOut body) {p : Procedure} (h : m.finish = .ok p) : p.LaidOut body := by
  obtain ⟨linked, graph, hlinked, hgraph, hp⟩ := finish_eq_ok h
  have hlocals : p.locals = m.locals := by rw [hp]
  refine ⟨hm.labels ▸ hm.nodup, ⟨m.statements.map (·.instruction), ?_, hm.nodes_finish h⟩,
    fun i hi => ?_⟩
  · rw [List.forall₂_map_right_iff, hlocals]
    exact hm.statements.imp fun _ _ hread => hread.1
  · -- a jump is one of the statements, and its line has the label
    obtain ⟨t, ht⟩ := hm.exists_of_isJump h hi
    rw [hm.instruction_finish h ht] at hi
    obtain ⟨s, hs, -, hline, hsome⟩ := exists_getElem?_left hm.statements ht
    obtain ⟨label, hlabel⟩ := Option.isSome_iff_exists.mp (hsome.symm.trans hi)
    obtain ⟨l, hl, hresolve⟩ :=
      exists_getElem?_left (List.Forall₂.flip (mapM_eq_ok_iff.mp hlinked)) ht
    obtain ⟨target, htarget, hmem⟩ := target_of_resolve hresolve hlabel
    refine ⟨s, label, target, hs, hline ▸ hlabel, hm.follows h hmem, ?_⟩
    have hnode : (linked ++ m.finalReturn)[i]? = some l := by
      rw [List.getElem?_append_left (List.getElem?_eq_some_iff.mp hl).1, hl]
    have hjump : l.instruction.isJump := by
      rw [instruction_resolve hresolve, hi]
    rw [hp]
    exact FlowGraph.branchEdges_of_build hgraph hnode hjump htarget

end LaidOut

end MethodDraft

end Source

end RangeGuard
