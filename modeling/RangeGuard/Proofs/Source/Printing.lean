import Mathlib.Data.List.Forall2
import RangeGuard.Proofs.Source.Spelling

/-!
# Reading what was written

The written form of an assignment or of a method call is a statement, and reading it gives the
instruction back, if the instruction is spelled as those are that were read from a text. The written
form is not the text that was read: `-y` is written `0 - y`, and `true`, `false` and `null` are
numbers.

Some names would be mistaken for the start of another statement: an assignment to `if` is no branch,
and a sum that starts with `new` is no new object. Locals of these names are left out
(`Source.mistakable`).

## How a reader is inverted

A reader tries one form after the other: a call ends with a parenthesis, an element with a bracket,
a field has a dot, a branch starts with `if`. For each written form it is therefore necessary to
know the characters that it has and the ones that it does not have (§1), and its first word (§2,
§3). With that the tests of the reader are decided one by one, and it takes the form that was
written apart into the parts it was put together from (§4 to §6).
-/

namespace RangeGuard

namespace Source

variable {c : Char} {s w : String} {rest : List String} {locals : List Local}

/-! ## §1 Written forms -/

/-- A written operand is plain. -/
theorem plain_text {o : Operand} (ho : o.Spelled locals) : Plain o.text := by
  cases o with
  | const n => exact plain_toString n
  | var v => exact plain_of_isIdentifier ho.1.2

/-- What a call names before its arguments. -/
def callee (call : Call) : String :=
  match call.receiver with
  | some v => v.name ++ "." ++ call.method
  | none => call.method

/-- A written call: what it names, and its arguments in parentheses. -/
private theorem text_eq_callee {call : Call} (h : call.Spelled locals) :
    call.text = callee call ++ "(" ++ ", ".intercalate (call.args.map Operand.text) ++ ")" := by
  obtain ⟨kind, receiver, className, method, args⟩ := call
  rcases h.dispatch with ⟨hkind, hreceiver⟩ | ⟨hkind, hreceiver⟩
  · obtain ⟨v, rfl⟩ := Option.isSome_iff_exists.mp hreceiver
    obtain rfl : kind = .virtual := hkind
    simp [Call.text, callee, String.append_assoc]
  · obtain rfl : receiver = none := hreceiver
    obtain rfl : kind = .static := hkind
    simp [Call.text, callee, String.append_assoc]

private theorem madeOf_callee {call : Call} (h : call.Spelled locals) :
    MadeOf ['.'] (callee call) := by
  have hmethod := (plain_of_isIdentifier h.method).madeOf ['.']
  unfold callee
  split
  · rename_i v hv
    have hreceiver := (plain_of_isIdentifier (h.receiver v hv).2).madeOf ['.']
    simp only [madeOf_append]
    exact ⟨⟨hreceiver, by decide⟩, hmethod⟩
  · exact hmethod

private theorem endsWith_call {call : Call} (h : call.Spelled locals) :
    Text.endsWith call.text ')' = true := by
  rw [text_eq_callee h, Text.endsWith_append _ (by decide)]
  decide

/-- The characters of an argument list. -/
theorem madeOf_arguments {args : List Operand} (h : ∀ o ∈ args, o.Spelled locals) :
    MadeOf [',', ' '] (", ".intercalate (args.map Operand.text)) := by
  intro c hc
  rcases Text.mem_intercalate hc with hglue | ⟨text, htext, hc⟩
  · exact (by decide : MadeOf [',', ' '] ", ") c hglue
  · obtain ⟨o, ho, rfl⟩ := List.mem_map.mp htext
    exact (plain_text (h o ho)).madeOf _ c hc

/-- The characters of a call. -/
theorem madeOf_call {call : Call} (h : call.Spelled locals) :
    MadeOf ['.', '(', ')', ',', ' '] call.text := by
  have hargs := (madeOf_arguments h.args).mono (by decide : [',', ' '] ⊆ ['.', '(', ')', ',', ' '])
  rw [text_eq_callee h]
  simp only [madeOf_append]
  exact ⟨⟨⟨(madeOf_callee h).mono (by decide), by decide⟩, hargs⟩, by decide⟩

private theorem isWord_callee {call : Call} (h : call.Spelled locals) :
    Text.IsWord (callee call) := by
  apply (madeOf_callee h).isWord _ (by decide)
  unfold callee
  split
  · simp
  · exact (plain_of_isIdentifier h.method).1

private theorem splitElement_eq_none (h : ']' ∉ s.toList) : splitElement s = none := by
  simp [splitElement, Text.dropSuffix?_eq_none h]

/-- What has neither a dot nor a bracket is not a read. -/
theorem readBase?_eq_none (hdot : '.' ∉ s.toList) (hbracket : '[' ∉ s.toList) :
    readBase? s = none := by
  simp [readBase?, Text.splitOnce_eq_none hdot, Text.splitOnce_eq_none hbracket]

/-- The base of a read stands at its start. -/
theorem toList_of_readBase? {base : String} (h : readBase? s = some base) :
    ∃ c rest, s.toList = base.toList ++ c :: rest := by
  unfold readBase? at h
  split at h
  · rename_i base' field hsplit
    obtain rfl := Option.some.inj h
    exact ⟨'.', field.toList, (Text.toList_of_splitOnce hsplit).1⟩
  · obtain ⟨⟨base', index⟩, hsplit, rfl⟩ := Option.map_eq_some_iff.mp h
    exact ⟨'[', index.toList, (Text.toList_of_splitOnce hsplit).1⟩

/-- A text that starts as a name does has no minus sign before it. -/
theorem negated?_eq_none {first : Char} {more : List Char} (hs : s.toList = first :: more)
    (hfirst : startsName first = true) : negated? s = none := by
  cases hafter : Text.after? "-" s with
  | none => simp [negated?, hafter]
  | some rest =>
    have hminus : s.toList = '-' :: rest.toList := by simpa using Text.toList_of_after? hafter
    rw [hs] at hminus
    obtain ⟨rfl, -⟩ := List.cons.inj hminus
    exact absurd hfirst (by decide)

/-- The minus sign of a literal is not read apart from it. -/
theorem negated?_toString {n : Int} (hmin : Text.literalMin < n) (hmax : n ≤ Text.literalMax) :
    negated? (toString n) = none := by
  rw [negated?_of_literal? (Text.literal?_toString (Int.le_of_lt hmin) hmax),
    if_neg (Int.ne_of_gt hmin)]

private theorem isWord_symbol (op : BinOp) : Text.IsWord op.symbol := by
  cases op <;> decide

private theorem ofSymbol?_symbol (op : BinOp) : BinOp.ofSymbol? op.symbol = some op := by
  cases op <;> rfl

/-- A written operation has three words. -/
private theorem words_binary (op : BinOp) {left right : Operand} (hleft : left.Spelled locals)
    (hright : right.Spelled locals) :
    Text.words (Rhs.binary op left right).text = [left.text, op.symbol, right.text] := by
  have htext : (Rhs.binary op left right).text = left.text ++ " " ++
      (op.symbol ++ " " ++ right.text) := by
    simp [Rhs.text, String.append_assoc]
  rw [htext, Text.words_append (plain_text hleft).isWord, Text.words_append (isWord_symbol op),
    Text.words_of_isWord (plain_text hright).isWord]

/-- The characters of a place. -/
theorem madeOf_place {target : Place} (h : target.Spelled locals) :
    MadeOf ['.', '[', ']'] target.text := by
  cases target with
  | var v => exact (plain_of_isIdentifier h.2).madeOf _
  | field base name =>
    cases base with
    | none => exact h.elim
    | some base =>
      simp only [Place.text, madeOf_append]
      exact ⟨⟨(plain_of_isIdentifier h.1.2).madeOf _, by decide⟩,
        (plain_of_isIdentifier h.2).madeOf _⟩
  | element base index =>
    simp only [Place.text, madeOf_append]
    exact ⟨⟨⟨(plain_of_isIdentifier h.1.2).madeOf _, by decide⟩,
      (plain_text h.2).madeOf _⟩, by decide⟩

private theorem isWord_place {target : Place} (h : target.Spelled locals) :
    Text.IsWord target.text := by
  apply (madeOf_place h).isWord _ (by decide)
  cases target with
  | var v => exact (plain_of_isIdentifier h.2).1
  | field base name =>
    cases base with
    | none => exact h.elim
    | some base => simp [Place.text]
  | element base index => simp [Place.text]

/-! ## §2 First words -/

/-- The names of locals that would be mistaken for the start of another statement. -/
def mistakable : List String := ["if", "param", "local", "new"]

/-- No operand is written `new`. -/
private theorem text_ne_new {o : Operand} (ho : o.Spelled locals)
    (hfree : ∀ v ∈ locals, v.name ∉ mistakable) : o.text ≠ "new" := by
  cases o with
  | const n => exact toString_ne ho.1 ho.2 (by decide)
  | var v =>
    intro hnew
    exact hfree v ho.1.1 (by simp [mistakable, show v.name = "new" from hnew])

/-- A call starts with a word that has an opening parenthesis in it. -/
theorem exists_words_call {call : Call} (h : call.Spelled locals) :
    ∃ w rest, Text.words call.text = w :: rest ∧ '(' ∈ w.toList := by
  have hword : Text.IsWord (callee call ++ "(") := (isWord_callee h).append (by decide)
  have htext : call.text =
      callee call ++ "(" ++ (", ".intercalate (call.args.map Operand.text) ++ ")") := by
    rw [text_eq_callee h, String.append_assoc]
  -- the parenthesis follows the callee without a blank, so it is in the first word
  obtain ⟨more, rest, hwords⟩ :=
    Text.exists_words_append hword (", ".intercalate (call.args.map Operand.text) ++ ")")
  exact ⟨_, rest, htext ▸ hwords, by simp⟩

/-- No right side starts with the word `new`. -/
private theorem exists_words_rhs {value : Rhs} (h : value.Spelled locals)
    (hfree : ∀ v ∈ locals, v.name ∉ mistakable) :
    ∃ w rest, Text.words value.text = w :: rest ∧ w ≠ "new" := by
  cases value with
  | const n =>
    have hn : (Operand.const n).Spelled locals := ⟨Int.le_of_lt h.1, h.2⟩
    exact ⟨_, [], Text.words_of_isWord (plain_text hn).isWord, text_ne_new hn hfree⟩
  | ref v =>
    have hv : (Operand.var v).Spelled locals := h
    exact ⟨_, [], Text.words_of_isWord (plain_text hv).isWord, text_ne_new hv hfree⟩
  | binary op left right => exact ⟨_, _, words_binary op h.1 h.2, text_ne_new h.1 hfree⟩
  | call call =>
    obtain ⟨w, rest, hwords, hopen⟩ := exists_words_call h
    refine ⟨w, rest, hwords, ?_⟩
    rintro rfl
    exact absurd hopen (by decide)
  | unmodeled description =>
    rcases h with rfl | ⟨hword, -, -, v, hv, hbase⟩
    · exact ⟨"null", [], by decide, by decide⟩
    · refine ⟨_, [], Text.words_of_isWord hword, ?_⟩
      rintro rfl
      exact absurd hbase (by simp [readBase?_eq_none])

/-! ## §3 Lines -/

/-- A text that stands on a line by itself: it is what is left of the line without comment and white
space. -/
structure IsLine (s : String) : Prop where
  comment : '#' ∉ s.toList
  lineBreak : '\n' ∉ s.toList
  tight : Text.Tight s

/-- What stands on a line by itself is the content of the line. -/
theorem IsLine.content (h : IsLine s) : content s = s := by
  simp [Source.content, Text.splitOnce_eq_none h.comment, Text.trim_eq_self h.tight]

/-- A word that has no comment stands on a line by itself. -/
theorem isLine_of_isWord (h : Text.IsWord s) (hcomment : '#' ∉ s.toList) : IsLine s := by
  refine ⟨hcomment, fun hbreak => ?_, h.tight⟩
  exact absurd (h.2 _ hbreak) (by decide)

theorem Plain.isLine (h : Plain s) : IsLine s := isLine_of_isWord h.isWord (h.not_mem (by decide))

/-- Between two texts on a line there can be anything that starts no comment and no line. -/
theorem IsLine.append {a b mid : String} (ha : IsLine a) (hb : IsLine b)
    (hmid : '#' ∉ mid.toList ∧ '\n' ∉ mid.toList) : IsLine (a ++ mid ++ b) := by
  refine ⟨?_, ?_, ha.tight.append hb.tight mid⟩
  · simp [ha.comment, hmid.1, hb.comment]
  · simp [ha.lineBreak, hmid.2, hb.lineBreak]

private theorem isLine_call {call : Call} (h : call.Spelled locals) : IsLine call.text := by
  have hmade := madeOf_call h
  refine ⟨hmade.not_mem (by decide) (by decide), hmade.not_mem (by decide) (by decide), ?_⟩
  have htext : call.text =
      callee call ++ ("(" ++ ", ".intercalate (call.args.map Operand.text)) ++ ")" := by
    simp [text_eq_callee h, String.append_assoc]
  have hclose : Text.IsWord ")" := by decide
  exact htext ▸ (isWord_callee h).tight.append hclose.tight _

private theorem isLine_rhs {value : Rhs} (h : value.Spelled locals) : IsLine value.text := by
  cases value with
  | const n => exact (plain_toString n).isLine
  | ref v => exact (plain_of_isIdentifier h.1.2).isLine
  | binary op left right =>
    have htext : (Rhs.binary op left right).text = left.text ++ (" " ++ op.symbol ++ " ") ++
        right.text := by
      simp [Rhs.text, String.append_assoc]
    rw [htext]
    apply (plain_text h.1).isLine.append (plain_text h.2).isLine
    cases op <;> decide
  | call call => exact isLine_call h
  | unmodeled description =>
    rcases h with rfl | ⟨hword, hcomment, -⟩
    · exact isLine_of_isWord (by decide) (by decide)
    · exact isLine_of_isWord hword hcomment

/-- An assignment or a call of a method. -/
def IsPrintable : Instruction → Prop
  | .assign _ _ => True
  | .call c => c.kind ≠ .constructor
  | _ => False

/-- A written instruction stands on a line by itself. -/
theorem isLine_text {i : Instruction} (hi : IsPrintable i) (h : i.Spelled locals) :
    IsLine i.text := by
  cases i with
  | assign target value =>
    have htarget : IsLine target.text :=
      isLine_of_isWord (isWord_place h.1) ((madeOf_place h.1).not_mem (by decide) (by decide))
    exact htarget.append (isLine_rhs h.2) (by decide)
  | call call => exact isLine_call (h.of_call hi)
  | branch | nop | goto | ret => exact hi.elim

/-- A written place is none of the words that start another statement. -/
private theorem place_not_mistakable {target : Place} (h : target.Spelled locals)
    (hfree : ∀ v ∈ locals, v.name ∉ mistakable) : target.text ∉ mistakable := by
  -- only a local is written as a word that could be one of these
  have hmark : ∀ c ∈ target.text.toList, (∀ w ∈ mistakable, c ∉ w.toList) →
      target.text ∉ mistakable :=
    fun c hc hnone hmem => hnone _ hmem hc
  cases target with
  | var v => exact hfree v h.1
  | field base name =>
    cases base with
    | none => exact h.elim
    | some base => exact hmark '.' (by simp [Place.text]) (by decide)
  | element base index => exact hmark '[' (by simp [Place.text]) (by decide)

/-- The words of an assignment. -/
theorem words_assign {a : String} (ha : Text.IsWord a) (b : String) :
    Text.words (a ++ " = " ++ b) = a :: "=" :: Text.words b := by
  have htext : a ++ " = " ++ b = a ++ " " ++ ("=" ++ " " ++ b) := by
    rw [← String.toList_inj]
    simp
  rw [htext, Text.words_append ha, Text.words_append (by decide)]

/-- The first word of a statement is none that starts a branch, a declaration or a label. If it is
the word of another statement, there are too many words for that. -/
theorem exists_words_text {i : Instruction} (hi : IsPrintable i) (h : i.Spelled locals)
    (hfree : ∀ v ∈ locals, v.name ∉ mistakable) :
    ∃ w rest, Text.words i.text = w :: rest ∧ w ∉ ["if", "param", "local"] ∧
      Text.endsWith w ':' = false ∧
      (w ∈ ["goto", "return", "nop", "end"] → 2 ≤ rest.length) := by
  cases i with
  | assign target value =>
    obtain ⟨htarget, hvalue⟩ := h
    obtain ⟨w, rest, hwords, -⟩ := exists_words_rhs hvalue hfree
    have hsub : ["if", "param", "local"] ⊆ mistakable := by decide
    have hall : Text.words (Instruction.assign target value).text =
        target.text :: "=" :: w :: rest := by
      rw [Instruction.text, words_assign (isWord_place htarget), hwords]
    refine ⟨_, _, hall, ?_, ?_, fun _ => by simp⟩
    · exact fun hmem => place_not_mistakable htarget hfree (hsub hmem)
    · exact Text.endsWith_eq_false ((madeOf_place htarget).not_mem (by decide) (by decide))
  | call call =>
    obtain ⟨w, rest, hwords, hopen⟩ := exists_words_call (h.of_call hi)
    -- the first word has a parenthesis in it, which no word of another statement has
    have hnot : ∀ ws : List String, (∀ w ∈ ws, '(' ∉ w.toList) → w ∉ ws :=
      fun ws hws hw => hws w hw hopen
    have hsub := (Text.of_mem_words (hwords ▸ List.mem_cons_self : w ∈ Text.words call.text)).2
    refine ⟨w, rest, hwords, hnot _ (by decide), ?_, fun hw => absurd hw (hnot _ (by decide))⟩
    exact Text.endsWith_eq_false fun hc => (madeOf_call (h.of_call hi)).not_mem (by decide)
      (by decide) (hsub hc)
  | branch | nop | goto | ret => exact hi.elim

/-- A right side of one word. -/
theorem rhs_of_isWord (hword : Text.IsWord s) (hends : Text.endsWith s ')' = false) :
    rhs locals s = simpleRhs locals s := by
  simp [rhs, hends, Text.words_of_isWord hword]

/-! ## §4 Operands and calls are read back -/

section

variable (hnames : (locals.map (·.name)).Nodup)

include hnames

/-- A local is found by its name. -/
private theorem variableNamed_name {v : Local} (hv : v.Spelled locals) :
    variableNamed locals v.name = .ok v := by
  -- the names are distinct, so the first local of this name is the only one
  have hfind : locals.find? (fun u => u.name = v.name) = some v := by
    cases hfind : locals.find? fun u => u.name = v.name with
    | none =>
      have hnone := List.find?_eq_none.mp hfind v hv.1
      simp at hnone
    | some u =>
      have hname : u.name = v.name := by simpa using List.find?_some hfind
      have hmem := List.mem_of_find?_eq_some hfind
      rw [List.inj_on_of_nodup_map hnames hmem hv.1 hname]
  simp [variableNamed, identifier, hv.2, lookupLocal, hfind, bind, Except.bind]

/-- An operand is read back. -/
theorem operand_text {o : Operand} (ho : o.Spelled locals) : operand locals o.text = .ok o := by
  cases o with
  | const n =>
    have hn := Text.literal?_toString ho.1 ho.2
    -- a numeral is none of the three words that stand for numbers
    have htrue : toString n ≠ "true" := toString_ne ho.1 ho.2 (by decide)
    have hfalse : toString n ≠ "false" := toString_ne ho.1 ho.2 (by decide)
    have hnull : toString n ≠ "null" := toString_ne ho.1 ho.2 (by decide)
    rw [Operand.text, operand, if_neg htrue, if_neg (not_or.mpr ⟨hfalse, hnull⟩), hn]
  | var v =>
    obtain ⟨hv, hreserved⟩ := ho
    simp only [List.mem_cons, List.not_mem_nil, or_false, not_or] at hreserved
    rw [Operand.text, operand, if_neg hreserved.1, if_neg (not_or.mpr hreserved.2),
      literal?_of_isIdentifier hv.2]
    simp [variableNamed_name hnames hv]

/-- An argument list is read back. -/
private theorem arguments_text {args : List Operand} (h : ∀ o ∈ args, o.Spelled locals) :
    arguments locals (", ".intercalate (args.map Operand.text)) = .ok args := by
  cases args with
  | nil => rfl
  | cons first rest =>
    have hword : ∀ o ∈ first :: rest, Text.Tight o.text :=
      fun o ho => (plain_text (h o ho)).isWord.tight
    have htight : Text.Tight (", ".intercalate ((first :: rest).map Operand.text)) :=
      Text.tight_intercalate (List.forall_mem_map.mpr hword) _
    have hcomma : ∀ s ∈ (first :: rest).map Operand.text, ',' ∉ s.toList :=
      List.forall_mem_map.mpr fun o ho => (plain_text (h o ho)).not_mem (by decide)
    rw [arguments, Text.trim_eq_self htight, if_neg htight.ne_empty, List.map_cons,
      Text.splitAll_intercalate (by decide) hcomma rfl]
    apply mapM_eq_ok_iff.mpr
    -- all arguments but the first one have a blank before them
    refine .cons ?_ (List.forall₂_map_left_iff.mpr (List.forall₂_map_left_iff.mpr
      (List.forall₂_same.mpr fun o ho => ?_)))
    · rw [Text.trim_eq_self (hword first List.mem_cons_self)]
      exact operand_text hnames (h first List.mem_cons_self)
    · rw [Text.trim_blank_append (hword o (List.mem_cons_of_mem first ho))]
      exact operand_text hnames (h o (List.mem_cons_of_mem first ho))

/-- A call is read back. -/
private theorem call_text {call : Call} (h : call.Spelled locals) :
    Source.call locals call.text = .ok call := by
  have hopen : '(' ∉ (callee call).toList := (madeOf_callee h).not_mem (by decide) (by decide)
  have hsplit : splitCall call.text =
      .ok (callee call, ", ".intercalate (call.args.map Operand.text)) := by
    have hclosed : Text.dropSuffix? call.text ')' =
        some (callee call ++ "(" ++ ", ".intercalate (call.args.map Operand.text)) := by
      apply Text.dropSuffix?_eq_some
      simp [text_eq_callee h]
    have hopened : Text.splitOnce '('
        (callee call ++ "(" ++ ", ".intercalate (call.args.map Operand.text)) =
        some (callee call, ", ".intercalate (call.args.map Operand.text)) := by
      apply Text.splitOnce_eq_some _ hopen
      simp
    rw [splitCall, hclosed, Option.bind_some, hopened]
    simp [Text.trim_eq_self (isWord_callee h).tight]
  have hmethod := plain_of_isIdentifier h.method
  -- the kind of the call is told by the dot alone
  obtain ⟨kind, receiver, className, method, args⟩ := call
  obtain rfl : className = none := h.className
  rcases h.dispatch with ⟨hkind, hreceiver⟩ | ⟨hkind, hreceiver⟩
  · obtain ⟨v, rfl⟩ := Option.isSome_iff_exists.mp hreceiver
    obtain rfl : kind = .virtual := hkind
    have hv := h.receiver v rfl
    have hdot : Text.splitOnce '.' (v.name ++ "." ++ method) = some (v.name, method) := by
      apply Text.splitOnce_eq_some _ ((plain_of_isIdentifier hv.2).not_mem (by decide))
      simp
    simp [Source.call, hsplit, arguments_text hnames h.args, callee, hdot,
      variableNamed_name hnames hv, identifier, h.method, bind, Except.bind, pure, Except.pure]
  · obtain rfl : receiver = none := hreceiver
    obtain rfl : kind = .static := hkind
    have hdot : Text.splitOnce '.' method = none :=
      Text.splitOnce_eq_none (hmethod.not_mem (by decide))
    simp [Source.call, hsplit, arguments_text hnames h.args, callee, hdot, identifier,
      h.method, bind, Except.bind, pure, Except.pure]

/-! ## §5 Assignments are read back -/

/-- A place is read back. -/
theorem place_text {target : Place} (h : target.Spelled locals) :
    place locals target.text = .ok target := by
  cases target with
  | var v =>
    have hplain := plain_of_isIdentifier h.2
    have hbracket : splitElement v.name = none := splitElement_eq_none (hplain.not_mem (by decide))
    have hdot : Text.splitOnce '.' v.name = none :=
      Text.splitOnce_eq_none (hplain.not_mem (by decide))
    simp [place, Place.text, hbracket, hdot, variableNamed_name hnames h]
  | field base name =>
    cases base with
    | none => exact h.elim
    | some base =>
      obtain ⟨hbase, hname⟩ := h
      have hplain := plain_of_isIdentifier hbase.2
      have hbracket : splitElement (base.name ++ "." ++ name) = none := by
        apply splitElement_eq_none
        simp [hplain.not_mem (c := ']') (by decide), (plain_of_isIdentifier hname).not_mem
          (c := ']') (by decide)]
      have hdot : Text.splitOnce '.' (base.name ++ "." ++ name) = some (base.name, name) := by
        apply Text.splitOnce_eq_some _ (hplain.not_mem (by decide))
        simp
      simp [place, Place.text, hbracket, hdot, variableNamed_name hnames hbase, identifier,
        hname, bind, Except.bind, pure, Except.pure]
  | element base index =>
    obtain ⟨hbase, hindex⟩ := h
    have hplain := plain_of_isIdentifier hbase.2
    have hbracket : splitElement (base.name ++ "[" ++ index.text ++ "]") =
        some (base.name, index.text) := by
      have hclosed : Text.dropSuffix? (base.name ++ "[" ++ index.text ++ "]") ']' =
          some (base.name ++ "[" ++ index.text) := by
        apply Text.dropSuffix?_eq_some
        simp
      rw [splitElement, hclosed, Option.bind_some]
      apply Text.splitOnce_eq_some _ (hplain.not_mem (by decide))
      simp
    simp [place, Place.text, hbracket, Text.trim_eq_self hplain.isWord.tight,
      Text.trim_eq_self (plain_text hindex).isWord.tight, variableNamed_name hnames hbase,
      operand_text hnames hindex, bind, Except.bind, pure, Except.pure]

private theorem simpleRhs_const {n : Int} (h : (Rhs.const n).Spelled locals) :
    simpleRhs locals (toString n) = .ok (.const n) := by
  have hplain := plain_toString n
  have hnull : toString n ≠ "null" := toString_ne (Int.le_of_lt h.1) h.2 (by decide)
  have hread := operand_text hnames (o := .const n) ⟨Int.le_of_lt h.1, h.2⟩
  rw [Operand.text] at hread
  rw [simpleRhs, if_neg hnull, negated?_toString h.1 h.2,
    readBase?_eq_none (hplain.not_mem (by decide)) (hplain.not_mem (by decide)), hread]
  rfl

private theorem simpleRhs_ref {v : Local} (h : (Operand.var v).Spelled locals) :
    simpleRhs locals v.name = .ok (.ref v) := by
  have hplain := plain_of_isIdentifier h.1.2
  obtain ⟨first, more, hname, hfirst⟩ := exists_of_isIdentifier h.1.2
  have hnull : v.name ≠ "null" := fun hnull => h.2 (by simp [hnull])
  have hread := operand_text hnames h
  rw [Operand.text] at hread
  rw [simpleRhs, if_neg hnull, negated?_eq_none hname hfirst,
    readBase?_eq_none (hplain.not_mem (by decide)) (hplain.not_mem (by decide)), hread]
  rfl

private theorem simpleRhs_kept (h : Kept locals s) : simpleRhs locals s = .ok (.unmodeled s) := by
  rcases h with rfl | ⟨-, -, -, v, hv, hbase⟩
  · rfl
  · obtain ⟨first, more, hname, hfirst⟩ := exists_of_isIdentifier hv.2
    obtain ⟨c, rest, hs⟩ := toList_of_readBase? hbase
    rw [hname, List.cons_append] at hs
    -- the base of the read stands before a dot or a bracket, which `null` has not
    have hnull : s ≠ "null" := by
      rintro rfl
      exact absurd hbase (by simp [readBase?_eq_none])
    rw [simpleRhs, if_neg hnull, negated?_eq_none hs hfirst, hbase]
    simp [variableNamed_name hnames hv, bind, Except.bind, pure, Except.pure]

/-- A right side is read back. -/
private theorem rhs_text {value : Rhs} (h : value.Spelled locals) :
    rhs locals value.text = .ok value := by
  cases value with
  | const n =>
    have hplain := plain_toString n
    rw [Rhs.text, rhs_of_isWord hplain.isWord (Text.endsWith_eq_false (hplain.not_mem (by decide)))]
    exact simpleRhs_const hnames h
  | ref v =>
    have hplain := plain_of_isIdentifier h.1.2
    rw [Rhs.text, rhs_of_isWord hplain.isWord (Text.endsWith_eq_false (hplain.not_mem (by decide)))]
    exact simpleRhs_ref hnames h
  | binary op left right =>
    obtain ⟨hleft, hright⟩ := h
    have hright' := plain_text hright
    -- an operation ends as its right operand does
    have hends : Text.endsWith (Rhs.binary op left right).text ')' = false := by
      rw [Rhs.text, Text.endsWith_append _ hright'.1]
      exact Text.endsWith_eq_false (hright'.not_mem (by decide))
    have hwords := words_binary op hleft hright
    simp [rhs, hends, hwords, ofSymbol?_symbol, operand_text hnames hleft,
      operand_text hnames hright, bind, Except.bind, pure, Except.pure]
  | call call =>
    rw [Rhs.text, rhs, if_pos (endsWith_call h), call_text hnames h]
    rfl
  | unmodeled description =>
    have hkept : Text.IsWord description ∧ Text.endsWith description ')' = false := by
      rcases h with rfl | ⟨hword, -, hends, -⟩
      · exact ⟨by decide, by decide⟩
      · exact ⟨hword, hends⟩
    rw [Rhs.text, rhs_of_isWord hkept.1 hkept.2]
    exact simpleRhs_kept hnames h

/-- An assignment is read back. -/
private theorem assignment_text {target : Place} {value : Rhs} (htarget : target.Spelled locals)
    (hvalue : value.Spelled locals) (hfree : ∀ v ∈ locals, v.name ∉ mistakable) :
    assignment locals target.text value.text = .ok (.assign target value) := by
  have hnew : Text.after? "new " value.text = none := by
    rw [Option.eq_none_iff_forall_ne_some]
    intro rest hrest
    -- what starts with `new` and a blank has `new` as its first word
    have htext : value.text = "new" ++ " " ++ rest := by
      rw [← String.toList_inj, Text.toList_of_after? hrest]
      simp
    obtain ⟨w, more, hwords, hw⟩ := exists_words_rhs hvalue hfree
    rw [htext, Text.words_append (by decide)] at hwords
    exact hw (List.cons.inj hwords).1.symm
  simp [assignment, place_text hnames htarget, hnew, rhs_text hnames hvalue, bind,
    Except.bind, pure, Except.pure]

/-! ## §6 Statements are read back -/

omit hnames in
/-- A statement that is not known by its first word is an assignment or a call. -/
theorem statement_of_words {answer : Except Cause (Instruction × Option String)}
    (hwords : Text.words s = w :: rest) (hif : w ≠ "if")
    (hmany : w ∈ ["goto", "return", "nop", "end"] → 2 ≤ rest.length)
    (hassign : ∀ left right, Text.splitOnce '=' s = some (left, right) →
      (do return (← assignment locals (Text.trim left) (Text.trim right), none)) = answer)
    (hcall : Text.splitOnce '=' s = none →
      (if Text.endsWith s ')' then do return (.call (← Source.call locals s), none)
        else .error (.malformedStatement s)) = answer) :
    statement locals s = answer := by
  have hbranch : ∀ more, w :: rest ≠ "if" :: more := fun more heq => hif (List.cons.inj heq).1
  have hshort : ∀ k more, k ∈ ["goto", "return", "nop", "end"] → more.length < 2 →
      w :: rest ≠ k :: more := by
    rintro k more hk hlength heq
    obtain ⟨rfl, rfl⟩ := List.cons.inj heq
    exact absurd (hmany hk) (Nat.not_le.mpr hlength)
  unfold statement
  rw [hwords]
  -- the cases before the last one are those of statements known by their first word
  split
  · exact absurd ‹_› (hbranch _)
  · exact absurd ‹_› (hbranch _)
  · exact absurd ‹_› (hshort _ _ (by simp) (by simp))
  · exact absurd ‹_› (hshort _ _ (by simp) (by simp))
  · exact absurd ‹_› (hshort _ _ (by simp) (by simp))
  · exact absurd ‹_› (hshort _ _ (by simp) (by simp))
  · split
    · exact hassign _ _ ‹_›
    · exact hcall ‹_›

/-- A statement is read back from its written form. -/
theorem statement_text {i : Instruction} (hi : IsPrintable i) (h : i.Spelled locals)
    (hfree : ∀ v ∈ locals, v.name ∉ mistakable) : statement locals i.text = .ok (i, none) := by
  obtain ⟨w, rest, hwords, hw, -, hmany⟩ := exists_words_text hi h hfree
  have hif : w ≠ "if" := by
    rintro rfl
    simp at hw
  cases i with
  | assign target value =>
    have hsplit : Text.splitOnce '=' (Instruction.assign target value).text =
        some (target.text ++ " ", " " ++ value.text) := by
      apply Text.splitOnce_eq_some
      · simp [Instruction.text]
      · simp [(madeOf_place h.1).not_mem (c := '=') (by decide) (by decide)]
    refine statement_of_words hwords hif hmany (fun left right hparts => ?_) fun hnone => ?_
    · obtain ⟨rfl, rfl⟩ := Prod.mk.inj (Option.some.inj (hsplit.symm.trans hparts))
      rw [Text.trim_append_blank (isWord_place h.1).tight,
        Text.trim_blank_append (isLine_rhs h.2).tight, assignment_text hnames h.1 h.2 hfree]
      rfl
    · cases hsplit.symm.trans hnone
  | call call =>
    have hmade := madeOf_call (h.of_call hi)
    have hsplit : Text.splitOnce '=' call.text = none :=
      Text.splitOnce_eq_none (hmade.not_mem (by decide) (by decide))
    refine statement_of_words hwords hif hmany (fun left right hparts => ?_) fun hnone => ?_
    · cases hsplit.symm.trans hparts
    · rw [Instruction.text, if_pos (endsWith_call (h.of_call hi)), call_text hnames (h.of_call hi)]
      rfl
  | branch | nop | goto | ret => exact hi.elim

end

end Source

end RangeGuard
