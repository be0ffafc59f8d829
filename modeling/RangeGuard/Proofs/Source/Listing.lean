import RangeGuard.Proofs.Source.Printing
import RangeGuard.Proofs.Source.WellFormed

/-!
# Listing a statement again

An assignment or a method call of an accepted text can be written back and read again: in a method
with the same declarations its written form is a statement, and the method has this one instruction.
No local may have a name that starts another kind of line.

The listing of a class needs its name, its fields and the locals of a method written as lines. What
the lines need to be read back holds of every class that was read: names are names, the types of
locals and fields have a written form, and the parameters stand among the locals in their order.
Each line of a text keeps this.

## Layers

1. *Types and declarations* (§1, §2): what declarations can give, kept line by line.
2. *Lines* (§3): a line is put together from words, and is cut into the same words again.
3. *Reading* (§4): one lemma for each kind of line says what it does to the progress. The fields and
   the declarations follow by induction, and the listing as a whole is a chain of these lemmas.
4. *Accepted texts* (§5): their instructions are spelled, so the lines of the listing can be read.
-/

namespace RangeGuard

/-! ## §1 Types -/

/-- A type that can be read from a name: the class of an object has a name that is not built in. -/
def Ty.Spelled : Ty → Prop
  | array element => element.Spelled
  | object className => Source.isQualified className = true ∧
    ofBaseName className = object className
  | _ => True

namespace Source

variable {s : String}

private theorem typeName_of_isQualified (h : isQualified s = true) : typeName s = .ok s := if_pos h

/-- The type of a name that is not built in is the class of that name. -/
private theorem spelled_ofBaseName {name : String} (h : isQualified name = true) :
    (Ty.ofBaseName name).Spelled := by
  unfold Ty.ofBaseName
  split
  · trivial
  split
  · trivial
  split
  · trivial
  split
  · trivial
  · rename_i hint hlong hfloat hdouble
    exact ⟨h, by simp [Ty.ofBaseName, hint, hlong, hfloat, hdouble]⟩

/-- The type of a name is spelled if the name without its brackets is a qualified one. -/
theorem spelled_declaredType {ty : Ty} (h : declaredType s = .ok ty) : ty.Spelled := by
  -- types are read from the end of the name, where the brackets are
  have hreversed : ∀ cs, isQualified (String.ofList (dropBrackets cs).reverse) = true →
      (Ty.ofReversed cs).Spelled := by
    intro cs
    fun_induction dropBrackets cs with
    | case1 rest ih =>
      intro hrest
      rw [Ty.ofReversed]
      exact ih hrest
    | case2 cs hcs =>
      intro hbase
      rw [Ty.ofReversed]
      · exact spelled_ofBaseName hbase
      · exact hcs
  obtain ⟨name, hname, h⟩ := bind_eq_ok_iff.mp h
  obtain rfl := Except.ok.inj h
  exact hreversed _ (typeName_eq_ok hname).2

private theorem isWord_of_isQualified (h : isQualified s = true) : Text.IsWord s := by
  apply (madeOf_of_isQualified h).isWord _ (by decide)
  rintro rfl
  cases h

/-- A written type has the characters of qualified names and brackets. -/
private theorem madeOf_ty {ty : Ty} (h : ty.Spelled) : MadeOf ['.', '[', ']'] ty.text := by
  induction ty with
  | array element ih =>
    rw [Ty.text, madeOf_append]
    exact ⟨ih h, by decide⟩
  | object className => exact (madeOf_of_isQualified h.1).mono (by decide)
  | int | long | float | double => decide

private theorem isWord_ty {ty : Ty} (h : ty.Spelled) : Text.IsWord ty.text := by
  apply (madeOf_ty h).isWord _ (by decide)
  cases ty with
  | array element => simp [Ty.text]
  | object className => exact (isWord_of_isQualified h.1).1
  | int | long | float | double => decide

/-- A type is read back from its written form. -/
theorem declaredType_text {ty : Ty} (h : ty.Spelled) : declaredType ty.text = .ok ty := by
  have hreversed : isQualified
      (String.ofList (dropBrackets ty.text.toList.reverse).reverse) = true ∧
      Ty.ofReversed ty.text.toList.reverse = ty := by
    induction ty with
    | array element ih =>
      have htext : (Ty.array element).text.toList.reverse =
          ']' :: '[' :: element.text.toList.reverse := by
        simp [Ty.text]
      rw [htext, dropBrackets, Ty.ofReversed]
      exact ⟨(ih h).1, congrArg Ty.array (ih h).2⟩
    | object className =>
      -- the name has no brackets to drop
      have hbracket : ∀ rest, className.toList.reverse ≠ ']' :: '[' :: rest := by
        intro rest hrest
        have hmem : ']' ∈ className.toList := by
          rw [← List.mem_reverse, hrest]
          exact List.mem_cons_self
        exact (madeOf_of_isQualified h.1).not_mem (by decide) (by decide) hmem
      rw [Ty.text, dropBrackets, Ty.ofReversed]
      · simpa [Ty.Spelled] using h
      · exact hbracket
      · exact hbracket
    | int | long | float | double => decide
  rw [declaredType, typeName_of_isQualified hreversed.1]
  exact congrArg Except.ok hreversed.2

/-! ## §2 Declarations -/

end Source

/-- A local that a declaration can give. -/
def Local.Declarable (v : Local) : Prop := Source.isIdentifier v.name = true ∧ v.ty.Spelled

/-- The locals are the object itself and others that declarations can give, the parameters in their
order among them. -/
def Source.Declarable (className : String) (params locals : List Local) : Prop :=
  ∃ rest, locals = ⟨"this", .object className⟩ :: rest ∧ params.Sublist rest ∧
    ∀ v ∈ rest, v.Declarable

/-- A class of which all parts but the bodies of its procedures can be written. -/
structure Class.Declarable (c : Class) : Prop where
  name : Source.isQualified c.name = true
  fields : ∀ f ∈ c.fields, f.Declarable
  procedures : ∀ p ∈ c.procedures, Source.isIdentifier p.name = true ∧
    Source.Declarable c.name p.params p.locals

namespace Source

/-- A method that is being read in a class of the given name. -/
def MethodDraft.Declarable (className : String) (m : MethodDraft) : Prop :=
  isIdentifier m.name = true ∧ Source.Declarable className m.params m.locals

/-- What has been read up to some line can be written. -/
def Progress.Declarable : Progress → Prop
  | start => True
  | inClass c => c.Declarable
  | inMethod c m => c.Declarable ∧ m.Declarable c.name

section

variable {c : Class} {m m' : MethodDraft} {progress next : Progress} {line : Nat}
  {className : String}

/-- A declaration adds a local at the end, and a parameter at the end of the parameters. -/
theorem MethodDraft.Declarable.declare (hm : m.Declarable className) {isParam : Bool}
    {type name : String} (h : m.declare isParam type name = .ok m') : m'.Declarable className := by
  obtain ⟨hname, rest, hlocals, hparams, hrest⟩ := hm
  unfold MethodDraft.declare at h
  obtain ⟨ty, hty, h⟩ := bind_eq_ok_iff.mp h
  obtain ⟨name', hname', h⟩ := bind_eq_ok_iff.mp h
  split at h
  · cases h
  · obtain rfl := Except.ok.inj h
    refine ⟨hname, rest ++ [⟨name', ty⟩], by simp [hlocals], ?_, ?_⟩
    · dsimp only
      split
      · exact hparams.append (List.Sublist.refl _)
      · exact hparams.trans (List.sublist_append_left _ _)
    · rw [List.forall_mem_append, List.forall_mem_singleton]
      exact ⟨hrest, isIdentifier_of_identifier hname', spelled_declaredType hty⟩

theorem MethodDraft.Declarable.addLine (hm : m.Declarable className)
    (h : m.addLine line s = .ok m') :
    m'.Declarable className := by
  have hstatement : m.addStatement line s = .ok m' → m'.Declarable className := by
    intro h
    obtain ⟨⟨i, label⟩, -, h⟩ := bind_eq_ok_iff.mp h
    obtain rfl := Except.ok.inj h
    exact hm
  unfold MethodDraft.addLine at h
  split at h
  · exact hm.declare h
  · exact hm.declare h
  · split at h
    · obtain ⟨label, -, h⟩ := bind_eq_ok_iff.mp h
      split at h
      · cases h
      · obtain rfl := Except.ok.inj h
        exact hm
    · exact hstatement h
  · exact hstatement h

private theorem declarable_readHeader (h : readHeader s = .ok next) : next.Declarable := by
  unfold readHeader at h
  split at h
  · obtain ⟨name, hname, h⟩ := bind_eq_ok_iff.mp h
    obtain rfl := Except.ok.inj h
    obtain ⟨rfl, hqualified⟩ := typeName_eq_ok hname
    exact ⟨hqualified, List.forall_mem_nil _, List.forall_mem_nil _⟩
  · cases h

private theorem declarable_readMember (hc : c.Declarable) (h : readMember c line s = .ok next) :
    next.Declarable := by
  unfold readMember at h
  split at h
  · obtain ⟨name, hname, h⟩ := bind_eq_ok_iff.mp h
    split at h
    · cases h
    · obtain ⟨ty, hty, h⟩ := bind_eq_ok_iff.mp h
      obtain rfl := Except.ok.inj h
      refine ⟨hc.name, ?_, hc.procedures⟩
      rw [List.forall_mem_append, List.forall_mem_singleton]
      exact ⟨hc.fields, isIdentifier_of_identifier hname, spelled_declaredType hty⟩
  · obtain ⟨name, hname, h⟩ := bind_eq_ok_iff.mp h
    split at h
    · cases h
    · obtain rfl := Except.ok.inj h
      exact ⟨hc, isIdentifier_of_identifier hname, [], rfl, List.Sublist.refl _,
        List.forall_mem_nil _⟩
  · cases h

/-- What a line keeps. -/
theorem Progress.Declarable.readLine (hprogress : progress.Declarable)
    (h : readLine progress line s = .ok next) : next.Declarable := by
  unfold Source.readLine at h
  split at h
  · exact declarable_readHeader (eq_ok_of_mapError h)
  · exact declarable_readMember hprogress (eq_ok_of_mapError h)
  · obtain ⟨hc, hm⟩ := hprogress
    split at h
    · obtain ⟨p, hp, h⟩ := bind_eq_ok_iff.mp h
      obtain rfl := Except.ok.inj h
      obtain ⟨linked, graph, -, -, rfl⟩ := MethodDraft.finish_eq_ok hp
      refine ⟨hc.name, hc.fields, ?_⟩
      rw [List.forall_mem_append, List.forall_mem_singleton]
      exact ⟨hc.procedures, hm⟩
    · obtain ⟨m', hm', rfl⟩ := map_eq_ok_iff.mp (eq_ok_of_mapError h)
      exact ⟨hc, hm.addLine hm'⟩

/-- All parts of an accepted class can be written. -/
theorem declarable_of_parse {text : String} (h : Class.parse text = .ok c) : c.Declarable := by
  have hstart : Progress.start.Declarable := trivial
  exact Progress.of_parse hstart Progress.Declarable.readLine h

end

/-! ## §3 The lines of a listing -/

/-- The line with the given words. -/
def lineOf (ws : List String) : String := " ".intercalate ws

/-- The line that declares a local of a method with the given parameters. -/
def declarationLine (params : List Local) (v : Local) : String :=
  lineOf [if v ∈ params then "param" else "local", v.ty.text, v.name]

/-- The line that declares a field. -/
def fieldLine (f : Local) : String := lineOf ["field", f.ty.text, f.name]

/-- The lines of a class with the name and the fields of `c` and with one method, which has the name
and the declarations of `p` and one statement. -/
def listing (c : Class) (p : Procedure) (s : String) : List String :=
  lineOf ["class", c.name] :: (c.fields.map fieldLine ++
    lineOf ["method", p.name] :: (p.locals.tail.map (declarationLine p.params) ++ [s, "end"]))

/-- A word that is not a comment. -/
def IsPart (w : String) : Prop := Text.IsWord w ∧ '#' ∉ w.toList

instance decidableIsPart (w : String) : Decidable (IsPart w) := inferInstanceAs (Decidable (_ ∧ _))

/-- Words that are not comments make a line. -/
private theorem isLine_lineOf {w : String} {ws : List String} (h : ∀ u ∈ w :: ws, IsPart u) :
    IsLine (lineOf (w :: ws)) := by
  induction ws generalizing w with
  | nil =>
    simpa [lineOf] using isLine_of_isWord (h w List.mem_cons_self).1 (h w List.mem_cons_self).2
  | cons w' ws ih =>
    obtain ⟨hw, hws⟩ := List.forall_mem_cons.mp h
    rw [lineOf, String.intercalate_cons_cons]
    exact (isLine_of_isWord hw.1 hw.2).append (ih hws) (by decide)

/-- A line is cut into the words it was made from. -/
private theorem words_lineOf {ws : List String} (h : ∀ u ∈ ws, IsPart u) :
    Text.words (lineOf ws) = ws :=
  Text.words_intercalate fun u hu => (h u hu).1

private theorem isPart_of_isIdentifier (h : isIdentifier s = true) : IsPart s :=
  ⟨(plain_of_isIdentifier h).isWord, (plain_of_isIdentifier h).not_mem (by decide)⟩

private theorem isPart_of_isQualified (h : isQualified s = true) : IsPart s :=
  ⟨isWord_of_isQualified h, (madeOf_of_isQualified h).not_mem (by decide) (by decide)⟩

private theorem isPart_ty {ty : Ty} (h : ty.Spelled) : IsPart ty.text :=
  ⟨isWord_ty h, (madeOf_ty h).not_mem (by decide) (by decide)⟩

/-- The words of a declaration. -/
theorem isPart_declaration (keyword : String) {v : Local} (hkeyword : IsPart keyword)
    (hv : v.Declarable) :
    ∀ u ∈ [keyword, v.ty.text, v.name], IsPart u := by
  simp only [List.forall_mem_cons]
  exact ⟨hkeyword, isPart_ty hv.2, isPart_of_isIdentifier hv.1, List.forall_mem_nil _⟩

/-! ## §4 Reading the lines -/

section

variable {c : Class} {m : MethodDraft} {progress next : Progress} {line : Nat} {rest : List String}

/-- A line is read without looking at the rest. -/
theorem readLines_of_content (hcontent : content s = s) (hne : s ≠ "")
    (h : readLine progress line s = .ok next) :
    readLines progress line (s :: rest) = readLines next (line + 1) rest := by
  simp [readLines, hcontent, hne, h, bind, Except.bind]

/-- The first of several lines. -/
theorem readLines_cons (hs : IsLine s) (h : readLine progress line s = .ok next) :
    readLines progress line (s :: rest) = readLines next (line + 1) rest :=
  readLines_of_content hs.content hs.tight.ne_empty h

private theorem readLines_class {name : String} (h : isQualified name = true) :
    readLines .start line (lineOf ["class", name] :: rest) =
      readLines (.inClass ⟨name, [], []⟩) (line + 1) rest := by
  have hparts : ∀ u ∈ ["class", name], IsPart u := by
    simp only [List.forall_mem_cons]
    exact ⟨by decide, isPart_of_isQualified h, List.forall_mem_nil _⟩
  apply readLines_cons (isLine_lineOf hparts)
  simp [readLine, readHeader, words_lineOf hparts, typeName_of_isQualified h, Except.mapError]

private theorem readLines_field {f : Local} (hf : f.Declarable)
    (hnew : f.name ∉ c.fields.map (·.name)) :
    readLines (.inClass c) line (fieldLine f :: rest) =
      readLines (.inClass { c with fields := c.fields ++ [f] }) (line + 1) rest := by
  have hparts := isPart_declaration "field" (by decide) hf
  apply readLines_cons (isLine_lineOf hparts)
  have hfresh : (c.fields.any fun g => g.name = f.name) = false := by simpa using hnew
  simp [readLine, readMember, words_lineOf hparts, identifier, hf.1, hfresh, declaredType_text hf.2,
    Except.mapError, bind, Except.bind, pure, Except.pure]

private theorem readLines_method {name : String} (h : isIdentifier name = true)
    (hnew : name ∉ c.procedures.map (·.name)) :
    readLines (.inClass c) line (lineOf ["method", name] :: rest) =
      readLines (.inMethod c (.begin c.name name line)) (line + 1) rest := by
  have hparts : ∀ u ∈ ["method", name], IsPart u := by
    simp only [List.forall_mem_cons]
    exact ⟨by decide, isPart_of_isIdentifier h, List.forall_mem_nil _⟩
  apply readLines_cons (isLine_lineOf hparts)
  have hfresh : (c.procedures.any fun p => p.name = name) = false := by simpa using hnew
  simp [readLine, readMember, words_lineOf hparts, identifier, h, hfresh, Except.mapError, bind,
    Except.bind, pure, Except.pure]

/-- The method after the declaration of a local. -/
def MethodDraft.withLocal (m : MethodDraft) (isParam : Bool) (v : Local) : MethodDraft :=
  { m with
    params := if isParam then m.params ++ [v] else m.params
    locals := m.locals ++ [v] }

private theorem readLines_declaration {params : List Local} {v : Local} (hv : v.Declarable)
    (hnew : v.name ∉ m.locals.map (·.name)) :
    readLines (.inMethod c m) line (declarationLine params v :: rest) =
      readLines (.inMethod c (m.withLocal (v ∈ params) v)) (line + 1) rest := by
  have hfresh : (m.locals.any fun u => u.name = v.name) = false := by simpa using hnew
  have hdeclare : ∀ isParam, m.declare isParam v.ty.text v.name = .ok (m.withLocal isParam v) := by
    intro isParam
    simp [MethodDraft.declare, declaredType_text hv.2, identifier, hv.1, hfresh,
      MethodDraft.withLocal, bind, Except.bind, pure, Except.pure]
  by_cases hparam : v ∈ params
  · have hparts := isPart_declaration "param" (by decide) hv
    simp only [declarationLine, hparam, if_true, decide_true]
    apply readLines_cons (isLine_lineOf hparts)
    simp [readLine, MethodDraft.addLine, words_lineOf hparts, hdeclare, Except.mapError, Except.map]
  · have hparts := isPart_declaration "local" (by decide) hv
    simp only [declarationLine, hparam, if_false, decide_false]
    apply readLines_cons (isLine_lineOf hparts)
    simp [readLine, MethodDraft.addLine, words_lineOf hparts, hdeclare, Except.mapError, Except.map]

/-- The written form of an instruction is read as a statement. -/
private theorem readLines_statement {i : Instruction} (hi : IsPrintable i)
    (hspelled : i.Spelled m.locals)
    (hnames : (m.locals.map (·.name)).Nodup) (hfree : ∀ v ∈ m.locals, v.name ∉ mistakable) :
    readLines (.inMethod c m) line (i.text :: rest) =
      readLines (.inMethod c { m with statements := m.statements ++ [⟨i, none, line⟩] })
        (line + 1) rest := by
  obtain ⟨w, ws, hwords, hw, hcolon, hmany⟩ := exists_words_text hi hspelled hfree
  have hstatement : m.addStatement line i.text =
      .ok { m with statements := m.statements ++ [⟨i, none, line⟩] } := by
    simp [MethodDraft.addStatement, statement_text hnames hi hspelled hfree, bind, Except.bind,
      pure, Except.pure]
  -- the first word starts no declaration and is no label
  have hadd : m.addLine line i.text = m.addStatement line i.text := by
    rw [MethodDraft.addLine, hwords]
    split
    · rename_i hparam
      simp [(List.cons.inj hparam).1] at hw
    · rename_i hlocal
      simp [(List.cons.inj hlocal).1] at hw
    · rename_i word hword
      simp [← (List.cons.inj hword).1, hcolon]
    · rfl
  have hend : Text.words i.text ≠ ["end"] := by
    intro hend
    obtain ⟨rfl, rfl⟩ := List.cons.inj (hwords.symm.trans hend)
    simp at hmany
  apply readLines_cons (isLine_text hi hspelled)
  simp [readLine, hend, hadd, hstatement, Except.mapError, Except.map]

private theorem name_not_mem {before after : List Local} {v : Local}
    (h : ((before ++ v :: after).map (·.name)).Nodup) : v.name ∉ before.map (·.name) := by
  rw [List.map_append, List.map_cons] at h
  intro hmem
  exact (List.nodup_append.mp h).2.2 _ hmem _ List.mem_cons_self rfl

/-- The lines of all fields. -/
theorem readLines_fields {fields : List Local} (hfields : ∀ f ∈ fields, f.Declarable)
    (hnames : ((c.fields ++ fields).map (·.name)).Nodup) :
    readLines (.inClass c) line (fields.map fieldLine ++ rest) =
      readLines (.inClass { c with fields := c.fields ++ fields }) (line + fields.length) rest := by
  induction fields generalizing c line with
  | nil => simp
  | cons f fields ih =>
    obtain ⟨hf, hfields⟩ := List.forall_mem_cons.mp hfields
    rw [List.map_cons, List.cons_append, readLines_field hf (name_not_mem hnames),
      ih hfields (by simpa using hnames)]
    simp [Nat.add_assoc, Nat.add_comm 1]

/-- The lines of all declarations of a method. -/
theorem readLines_declarations {params locals : List Local} (hlocals : ∀ v ∈ locals, v.Declarable)
    (hnames : ((m.locals ++ locals).map (·.name)).Nodup) :
    readLines (.inMethod c m) line (locals.map (declarationLine params) ++ rest) =
      readLines (.inMethod c { m with
        params := m.params ++ locals.filter (· ∈ params)
        locals := m.locals ++ locals }) (line + locals.length) rest := by
  induction locals generalizing m line with
  | nil => simp
  | cons v locals ih =>
    obtain ⟨hv, hlocals⟩ := List.forall_mem_cons.mp hlocals
    rw [List.map_cons, List.cons_append, readLines_declaration hv (name_not_mem hnames),
      ih hlocals (by simpa [MethodDraft.withLocal] using hnames)]
    -- a parameter is added to both lists
    by_cases hparam : v ∈ params <;>
      simp [MethodDraft.withLocal, hparam, Nat.add_assoc, Nat.add_comm 1]

/-- The parameters are found again among the locals, in their order. -/
theorem filter_mem_params {params locals : List Local} (h : params.Sublist locals)
    (hnodup : locals.Nodup) :
    locals.filter (· ∈ params) = params := by
  induction h with
  | slnil => rfl
  | @cons params locals v h ih =>
    obtain ⟨hv, hlocals⟩ := List.nodup_cons.mp hnodup
    have hnot : v ∉ params := fun hmem => hv (h.subset hmem)
    simp [hnot, ih hlocals]
  | @cons_cons params locals v h ih =>
    obtain ⟨hv, hlocals⟩ := List.nodup_cons.mp hnodup
    have hrest : locals.filter (· ∈ v :: params) = locals.filter (· ∈ params) := by
      apply List.filter_congr
      intro u hu
      simp [ne_of_mem_of_not_mem hu hv]
    simpa [ih hlocals] using hrest

/-- One statement makes a graph of one node. -/
theorem finish_single {i : Instruction} (hi : IsPrintable i)
    (hstatements : m.statements = [⟨i, none, line⟩]) (hlabels : m.labels = []) :
    ∃ graph, m.finish = .ok ⟨m.name, m.params, m.locals, graph⟩ ∧ graph.nodes = [i] := by
  have hbuild : ∃ graph, FlowGraph.build [⟨i, none⟩] = .ok graph ∧ graph.nodes = [i] := by
    -- without a jump there is nothing to resolve
    cases i with
    | assign target value => exact ⟨_, rfl, rfl⟩
    | call call => exact ⟨_, rfl, rfl⟩
    | branch | nop | goto | ret => exact hi.elim
  obtain ⟨graph, hgraph, hnodes⟩ := hbuild
  refine ⟨graph, ?_, hnodes⟩
  simp [MethodDraft.finish, hstatements, MethodDraft.resolve, MethodDraft.finalReturn, hlabels,
    hgraph, bind, Except.bind, pure, Except.pure]

/-- The last line of a method. -/
theorem readLines_end {p : Procedure} (h : m.finish = .ok p) :
    readLines (.inMethod c m) line ["end"] =
      .ok (.inClass { c with procedures := c.procedures ++ [p] }) := by
  have hwords : Text.words "end" = ["end"] := by decide
  have hread : readLine (.inMethod c m) line "end" =
      .ok (.inClass { c with procedures := c.procedures ++ [p] }) := by
    simp [readLine, hwords, h, bind, Except.bind, pure, Except.pure]
  exact readLines_cons (isLine_of_isWord (by decide) (by decide)) hread

/-- A method that has only declared its locals is finished by a statement and the last line. -/
theorem readLines_single {i : Instruction} (hi : IsPrintable i) (hspelled : i.Spelled m.locals)
    (hnames : (m.locals.map (·.name)).Nodup) (hfree : ∀ v ∈ m.locals, v.name ∉ mistakable)
    (hstatements : m.statements = []) (hlabels : m.labels = []) :
    ∃ graph, readLines (.inMethod c m) line [i.text, "end"] =
      .ok (.inClass { c with procedures := c.procedures ++
        [⟨m.name, m.params, m.locals, graph⟩] }) ∧
      graph.nodes = [i] := by
  obtain ⟨graph, hfinish, hnodes⟩ : ∃ graph,
      MethodDraft.finish { m with statements := m.statements ++ [⟨i, none, line⟩] } =
        .ok ⟨m.name, m.params, m.locals, graph⟩ ∧ graph.nodes = [i] :=
    finish_single hi (by rw [hstatements, List.nil_append]) hlabels
  exact ⟨graph, (readLines_statement hi hspelled hnames hfree).trans
    (readLines_end hfinish), hnodes⟩

/-- The listing is read line by line: the class, its fields, the method, its declarations and the
statement. -/
theorem readLines_listing {p : Procedure} {i : Instruction} (line : Nat) (hc : c.Declarable)
    (hfields : (c.fields.map (·.name)).Nodup) (hname : isIdentifier p.name = true)
    (hp : Declarable c.name p.params p.locals) (hnames : (p.locals.map (·.name)).Nodup)
    (hi : IsPrintable i) (hspelled : i.Spelled p.locals)
    (hfree : ∀ v ∈ p.locals, v.name ∉ mistakable) :
    ∃ graph, readLines .start line (listing c p i.text) =
      .ok (.inClass ⟨c.name, c.fields, [⟨p.name, p.params, p.locals, graph⟩]⟩) ∧
        graph.nodes = [i] := by
  obtain ⟨declared, hlocals, hparams, hdeclared⟩ := hp
  have htail : p.locals.tail = declared := by rw [hlocals, List.tail_cons]
  have hnodup : declared.Nodup := by
    have h := List.Nodup.of_map _ hnames
    rw [hlocals] at h
    exact (List.nodup_cons.mp h).2
  -- the line of the method
  obtain ⟨first, hfirst⟩ : ∃ n, n = line + 1 + c.fields.length := ⟨_, rfl⟩
  obtain ⟨graph, hsingle, hnodes⟩ : ∃ graph,
      readLines (.inMethod ⟨c.name, c.fields, []⟩ ⟨p.name, first, p.params, p.locals, [], []⟩)
        (first + 1 + declared.length) [i.text, "end"] =
          .ok (.inClass ⟨c.name, c.fields, [⟨p.name, p.params, p.locals, graph⟩]⟩) ∧
            graph.nodes = [i] :=
    readLines_single hi hspelled hnames hfree rfl rfl
  refine ⟨graph, ?_, hnodes⟩
  calc readLines .start line (listing c p i.text)
    _ = readLines (.inClass ⟨c.name, [], []⟩) (line + 1) (c.fields.map fieldLine ++
          lineOf ["method", p.name] :: (p.locals.tail.map (declarationLine p.params) ++
            [i.text, "end"])) :=
        readLines_class hc.name
    _ = readLines (.inClass ⟨c.name, c.fields, []⟩) first
          (lineOf ["method", p.name] :: (p.locals.tail.map (declarationLine p.params) ++
            [i.text, "end"])) := by
        rw [readLines_fields hc.fields (by simpa using hfields), hfirst, List.nil_append]
    _ = readLines (.inMethod ⟨c.name, c.fields, []⟩ (.begin c.name p.name first)) (first + 1)
          (p.locals.tail.map (declarationLine p.params) ++ [i.text, "end"]) :=
        readLines_method hname List.not_mem_nil
    _ = readLines (.inMethod ⟨c.name, c.fields, []⟩ ⟨p.name, first, p.params, p.locals, [], []⟩)
          (first + 1 + declared.length) [i.text, "end"] := by
        rw [htail, readLines_declarations hdeclared
          (by simpa [MethodDraft.begin, hlocals] using hnames), filter_mem_params hparams hnodup]
        simp [MethodDraft.begin, hlocals]
    _ = .ok (.inClass ⟨c.name, c.fields, [⟨p.name, p.params, p.locals, graph⟩]⟩) := hsingle

/-- The listing has no line breaks or comments within its lines. -/
private theorem isLine_listing {p : Procedure} (hc : c.Declarable)
    (hname : isIdentifier p.name = true)
    (hp : Declarable c.name p.params p.locals) (hs : IsLine s) : ∀ l ∈ listing c p s, IsLine l := by
  obtain ⟨declared, hlocals, -, hdeclared⟩ := hp
  have htail : p.locals.tail = declared := by rw [hlocals, List.tail_cons]
  have hkeyword : ∀ w ∈ ["class", "field", "method", "param", "local", "end"], IsPart w := by decide
  have htitle : ∀ {keyword name : String}, IsPart keyword → IsPart name →
      IsLine (lineOf [keyword, name]) := by
    intro keyword name hkeyword hname
    apply isLine_lineOf
    simp only [List.forall_mem_cons]
    exact ⟨hkeyword, hname, List.forall_mem_nil _⟩
  simp only [listing, List.forall_mem_cons, List.forall_mem_append, List.forall_mem_map, htail]
  refine ⟨?_, ?_, ?_, ?_, hs, ?_, List.forall_mem_nil _⟩
  · exact htitle (hkeyword _ (by simp)) (isPart_of_isQualified hc.name)
  · exact fun f hf => isLine_lineOf (isPart_declaration _ (hkeyword _ (by simp)) (hc.fields f hf))
  · exact htitle (hkeyword _ (by simp)) (isPart_of_isIdentifier hname)
  · intro v hv
    apply isLine_lineOf (isPart_declaration _ (hkeyword _ _) (hdeclared v hv))
    split <;> simp
  · exact isLine_of_isWord (hkeyword "end" (by simp)).1 (hkeyword "end" (by simp)).2

end

/-! ## §5 Statements of accepted texts -/

/-- The rest of a line has no comment. -/
theorem comment_not_mem_content (s : String) : '#' ∉ (content s).toList := by
  intro hmem
  unfold content at hmem
  split at hmem
  · rename_i before after hsplit
    exact (Text.toList_of_splitOnce hsplit).2 (Text.trim_subset _ hmem)
  · rename_i hsplit
    exact Text.not_mem_of_splitOnce_eq_none hsplit (Text.trim_subset _ hmem)

/-- The instructions of an accepted text are spelled. -/
theorem spelled_of_parse {text : String} {c : Class} {p : Procedure} {i : Instruction}
    (hparse : Class.parse text = .ok c) (hp : p ∈ c.procedures) (hi : i ∈ p.graph.nodes) :
    i.Spelled p.locals := by
  obtain ⟨before, first, body, last, after, hlines, -, -, -, hlaid⟩ :=
    (finished_of_parse hparse).written p hp
  obtain ⟨read, hread, hnodes⟩ := hlaid.nodes
  rw [hnodes, List.mem_append] at hi
  rcases hi with hi | hi
  · obtain ⟨k, hk⟩ := List.mem_iff_getElem?.mp hi
    obtain ⟨s, hs, scope, hscope, hstatement⟩ := exists_getElem?_left hread hk
    have hcontent : s ∈ contents (Text.lines text) := by
      rw [hlines]
      simp [(List.mem_filter.mp (List.mem_of_getElem? hs)).1]
    obtain ⟨l, -, rfl⟩ := List.mem_map.mp (List.mem_filter.mp hcontent).1
    exact Instruction.Spelled.mono hscope.subset
      (spelled_statement (comment_not_mem_content l) hstatement)
  · -- the return at the end of a body that runs out
    split at hi
    · rw [List.mem_singleton.mp hi]
      trivial
    · cases hi

end Source

/-- The text of a class with one method, whose only statement is the given one. -/
def Class.listingText (c : Class) (p : Procedure) (s : String) : String :=
  String.join ((Source.listing c p s).map (· ++ "\n"))

/-- An assignment or a method call of an accepted text is read back from its written form: as the
only statement of a method, after whatever has declared the same locals, and in the listing of the
class. -/
theorem Class.parse_listingText {text : String} {c : Class} {p : Procedure} {i : Instruction}
    (hparse : Class.parse text = .ok c) (hp : p ∈ c.procedures) (hi : i ∈ p.graph.nodes)
    (hkind : Source.IsPrintable i) (hfree : ∀ v ∈ p.locals, v.name ∉ Source.mistakable) :
    (∃ graph, Class.parse (c.listingText p i.text) =
        .ok ⟨c.name, c.fields, [⟨p.name, p.params, p.locals, graph⟩]⟩ ∧ graph.nodes = [i]) ∧
    ∀ (d : Class) (m : Source.MethodDraft) (line : Nat),
      m.locals = p.locals → m.statements = [] → m.labels = [] →
      ∃ graph, Source.readLines (.inMethod d m) line [i.text, "end"] =
        .ok (.inClass { d with procedures := d.procedures ++
          [⟨m.name, m.params, p.locals, graph⟩] }) ∧
        graph.nodes = [i] := by
  have hc := Source.declarable_of_parse hparse
  have hfields := (Source.finished_of_parse hparse).fields
  have hnames := (Class.declared_of_parse hparse p hp).names
  have hspelled := Source.spelled_of_parse hparse hp hi
  obtain ⟨hname, hdeclarable⟩ := hc.procedures p hp
  constructor
  · have hlines : Text.lines (c.listingText p i.text) = Source.listing c p i.text :=
      Text.lines_join fun l hl =>
        (Source.isLine_listing hc hname hdeclarable (Source.isLine_text hkind hspelled) l
          hl).lineBreak
    obtain ⟨graph, hread, hnodes⟩ :=
      Source.readLines_listing 1 hc hfields hname hdeclarable hnames hkind hspelled hfree
    refine ⟨graph, ?_, hnodes⟩
    rw [Class.parse, hlines, hread]
    rfl
  · intro d m line hlocals hstatements hlabels
    rw [← hlocals] at hspelled hnames hfree ⊢
    exact Source.readLines_single hkind hspelled hnames hfree hstatements hlabels

/-- A text with the least literal, a truth value and white space that the written form does not
have. -/
def leastLiteralText : String :=
  "class Least\nmethod run\nlocal short[] a\n" ++
    "param byte n\n a[ n ] =-9223372036854775808  - true # two\nend\n"

/-- The method of the text. -/
def leastLiteral : Procedure where
  name := "run"
  params := [⟨"n", .int⟩]
  locals := [⟨"this", .object "Least"⟩, ⟨"a", .array .int⟩, ⟨"n", .int⟩]
  graph := {
    nodes := [.assign (.element ⟨"a", .array .int⟩ (.var ⟨"n", .int⟩))
      (.binary .sub (.const (-9223372036854775808)) (.const 1))]
    edges := []
    nonempty := by decide
    closed := by decide }

private theorem parse_leastLiteralText :
    Class.parse leastLiteralText = .ok ⟨"Least", [], [leastLiteral]⟩ :=
  Source.eq_ok_of_toOption (by decide +kernel)

/-- The least literal is read as an operand, with a minus sign of its own. -/
theorem Class.parse_listingText_leastLiteral :
    Class.parse leastLiteralText = .ok ⟨"Least", [], [leastLiteral]⟩ ∧
    ∃ graph, Class.parse
        ("class Least\nmethod run\nlocal int[] a\nparam int n\n" ++
          "a[n] = -9223372036854775808 - 1\nend\n") =
      .ok ⟨"Least", [], [⟨"run", leastLiteral.params, leastLiteral.locals, graph⟩]⟩ ∧
      graph.nodes = leastLiteral.graph.nodes := by
  obtain ⟨⟨graph, hread, hnodes⟩, -⟩ := Class.parse_listingText parse_leastLiteralText
    (List.mem_singleton_self _) (List.mem_singleton_self _) trivial (by decide)
  refine ⟨parse_leastLiteralText, graph, ?_, hnodes⟩
  -- the text is the listing, with all that the first text had besides left out
  exact (congrArg Class.parse (by decide +kernel)).trans hread

end RangeGuard
