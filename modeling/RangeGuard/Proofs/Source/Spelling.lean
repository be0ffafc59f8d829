import RangeGuard.Proofs.Source.Declarations
import RangeGuard.Proofs.Text.Cutting

/-!
# What instructions are spelled with

Not every instruction can be read from a text: operands have to fit the limits of literals, names
have to be names, and a right side that is kept as its text has to be a text that is kept.
`Instruction.Spelled` says so by constructors, and every instruction that was read is spelled in
this sense. It says nothing of the text from which the instruction was read; that text may spell a
number as `true` or with a sign and zeros, and it may stand anywhere between white space.

## Layers

1. *Characters* (§1). Names and written integers share a class of characters, the plain ones. A text
   is described by the marks that it has besides them (`Source.MadeOf`), which is all that is needed
   to know where it can be cut.
2. *Instructions* (§2, §3). What can be read, by constructors, and the fact that more declared
   locals do not take anything away.
3. *Reading* (§4). The readers are followed once more, from variables to statements, as for the
   declarations; here the texts matter, and not only the locals.

The tests of characters are not made for proofs by computation over all characters. Where a class of
characters is small, its codes are listed and the test is run on them (`Source.eq_false_of_code`).
-/

namespace RangeGuard

namespace Source

variable {c : Char} {s w : String} {rest : List String}

/-! ## §1 Characters -/

/-- A character of a name or of a written integer. -/
def isPlain (c : Char) : Bool := continuesName c || c == '-'

/-- A test that fails for all codes of a list fails for all characters with such a code. -/
theorem eq_false_of_code {f : Char → Bool} {codes : List Nat} (hc : c.toNat ∈ codes)
    (h : ∀ n ∈ codes, f (Char.ofNat n) = false) : f c = false := by
  have hf := h c.toNat hc
  rwa [Char.ofNat_toNat] at hf

/-- White space is not plain. -/
private theorem isPlain_eq_false_of_isBlank (h : Text.isBlank c = true) : isPlain c = false := by
  -- the codes of all blank characters
  have hcode : c.toNat ∈ List.range' 0x9 5 ++ [0x20, 0x85, 0xa0, 0x1680] ++ List.range' 0x2000 11 ++
      [0x2028, 0x2029, 0x202f, 0x205f, 0x3000] := by
    simp only [Text.isBlank, Bool.or_eq_true, Bool.and_eq_true, decide_eq_true_eq, beq_iff_eq] at h
    simp only [List.mem_append, List.mem_range'_1, List.mem_cons, List.not_mem_nil, or_false]
    omega
  exact eq_false_of_code hcode (by decide +kernel)

private theorem isBlank_eq_false_of_isPlain (h : isPlain c = true) : Text.isBlank c = false := by
  by_contra hblank
  rw [Bool.not_eq_false] at hblank
  simp [isPlain_eq_false_of_isBlank hblank] at h

/-- No name starts with a digit. -/
theorem startsName_eq_false_of_isDigit (h : c.isDigit = true) : startsName c = false := by
  have hcode : c.toNat ∈ List.range' 48 10 := by
    simp only [Char.isDigit, Bool.and_eq_true, decide_eq_true_eq] at h
    rw [List.mem_range'_1]
    exact ⟨h.1, Nat.lt_succ_of_le h.2⟩
  exact eq_false_of_code hcode (by decide)

/-- Digits are plain. -/
theorem isPlain_of_isDigit (h : c.isDigit = true) : isPlain c = true := by
  have hcode : c.toNat < 128 := by
    simp only [Char.isDigit, Bool.and_eq_true, decide_eq_true_eq] at h
    exact Nat.lt_of_le_of_lt h.2 (by decide)
  simp [isPlain, continuesName, Text.isNumber, hcode, h]

/-- Characters of names and written integers, and the given marks. -/
def MadeOf (marks : List Char) (s : String) : Prop := ∀ c ∈ s.toList, isPlain c = true ∨ c ∈ marks

instance decidableMadeOf (marks : List Char) (s : String) : Decidable (MadeOf marks s) :=
  List.decidableBAll (fun c => isPlain c = true ∨ c ∈ marks) s.toList

/-- Characters of names and written integers, and at least one of them. -/
def Plain (s : String) : Prop := s ≠ "" ∧ MadeOf [] s

section

variable {marks : List Char} {a b : String}

@[simp] theorem madeOf_append : MadeOf marks (a ++ b) ↔ MadeOf marks a ∧ MadeOf marks b := by
  simp only [MadeOf, String.toList_append, List.forall_mem_append]

/-- A character that is neither plain nor a mark does not occur. -/
theorem MadeOf.not_mem (h : MadeOf marks s) (hplain : isPlain c = false) (hc : c ∉ marks) :
    c ∉ s.toList := by
  intro hmem
  rcases h c hmem with h | h
  · simp [h] at hplain
  · exact hc h

theorem MadeOf.mono {marks' : List Char} (h : MadeOf marks s) (hmarks : marks ⊆ marks') :
    MadeOf marks' s :=
  fun c hc => (h c hc).imp id fun hmark => hmarks hmark

/-- Without white space among the marks a text is a word. -/
theorem MadeOf.isWord (h : MadeOf marks s) (hs : s ≠ "") (hmarks : marks.any Text.isBlank = false) :
    Text.IsWord s :=
  ⟨hs, fun c hc => (h c hc).elim isBlank_eq_false_of_isPlain fun hmark =>
    Bool.eq_false_iff.mpr (List.any_eq_false.mp hmarks c hmark)⟩

theorem Plain.madeOf (h : Plain s) (marks : List Char) : MadeOf marks s :=
  h.2.mono (List.nil_subset _)

theorem Plain.isWord (h : Plain s) : Text.IsWord s := h.2.isWord h.1 rfl

theorem Plain.not_mem (h : Plain s) (hc : isPlain c = false) : c ∉ s.toList :=
  h.2.not_mem hc List.not_mem_nil

end

/-- Names are plain. -/
theorem plain_of_isIdentifier (h : isIdentifier s = true) : Plain s := by
  unfold isIdentifier at h
  split at h
  · cases h
  · rename_i first rest hs
    rw [Bool.and_eq_true, List.all_eq_true] at h
    refine ⟨?_, fun c hc => ?_⟩
    · rintro rfl
      cases hs
    · rw [hs, List.mem_cons] at hc
      rcases hc with rfl | hc
      · exact .inl (by simp [isPlain, continuesName, h.1])
      · exact .inl (by simp [isPlain, h.2 c hc])

/-- A name starts with a character that is neither a digit nor a minus sign. -/
theorem exists_of_isIdentifier (h : isIdentifier s = true) :
    ∃ first rest, s.toList = first :: rest ∧ startsName first = true := by
  unfold isIdentifier at h
  split at h
  · cases h
  · rename_i first rest hs
    rw [Bool.and_eq_true] at h
    exact ⟨first, rest, hs, h.1⟩

/-- Written integers are plain. -/
theorem plain_toString (n : Int) : Plain (toString n) := by
  have hdigits : ∀ m, ∀ c ∈ Nat.toDigits 10 m, isPlain c = true ∨ c ∈ [] := fun m c hc =>
    .inl (isPlain_of_isDigit (Nat.isDigit_of_mem_toDigits (by decide) (by decide) hc))
  unfold Plain MadeOf
  rw [ne_eq, ← String.toList_eq_nil_iff, Text.toList_toString]
  split
  · exact ⟨Nat.toDigits_ne_nil, hdigits _⟩
  · rw [List.forall_mem_cons]
    exact ⟨List.cons_ne_nil _ _, by decide, hdigits _⟩

/-- Identifiers with dots between them. -/
def isQualified (s : String) : Bool := (Text.splitAll '.' s).all isIdentifier

/-- A type name is taken as it is written. -/
theorem typeName_eq_ok {name : String} (h : typeName s = .ok name) :
    name = s ∧ isQualified s = true := by
  unfold typeName at h
  split at h
  · exact ⟨(Except.ok.inj h).symm, ‹_›⟩
  · cases h

/-- A qualified name is made of names and dots. -/
theorem madeOf_of_isQualified (h : isQualified s = true) : MadeOf ['.'] s := by
  intro c hc
  have hparts := List.all_eq_true.mp h
  rcases Text.mem_pieces_of_mem (p := (· = '.')) hc with hdot | ⟨piece, hpiece, hc⟩
  · exact .inr (by simpa using hdot)
  · have hplain := plain_of_isIdentifier (hparts _ (List.mem_map_of_mem hpiece))
    exact hplain.madeOf _ c (by simpa using hc)

/-- A text that is not a literal is not the written form of one. -/
theorem toString_ne {n : Int} (hmin : Text.literalMin ≤ n) (hmax : n ≤ Text.literalMax)
    (hs : Text.literal? s = none) : toString n ≠ s := by
  rintro rfl
  rw [Text.literal?_toString hmin hmax] at hs
  cases hs

/-- A name is not a literal. -/
theorem literal?_of_isIdentifier (h : isIdentifier s = true) : Text.literal? s = none := by
  obtain ⟨first, rest, hs, hfirst⟩ := exists_of_isIdentifier h
  have hdigit : first.isDigit = false := by
    by_contra hdigit
    simp [startsName_eq_false_of_isDigit (Bool.not_eq_false _ ▸ hdigit)] at hfirst
  have hinteger : Text.integer? s.toList = none := by
    rw [hs]
    unfold Text.integer?
    -- a name starts neither with a sign nor with a digit
    split
    · rename_i hsign
      obtain ⟨rfl, -⟩ := List.cons.inj hsign
      exact absurd hfirst (by decide)
    · rename_i hsign
      obtain ⟨rfl, -⟩ := List.cons.inj hsign
      exact absurd hfirst (by decide)
    · simp [Text.natural?, hdigit]
  simp [Text.literal?, hinteger]

end Source

/-! ## §2 What is read from statements -/

/-- A declared local whose name is a name. -/
def Local.Spelled (locals : List Local) (v : Local) : Prop :=
  v ∈ locals ∧ Source.isIdentifier v.name = true

/-- A literal, or a declared local that can be read as an operand. -/
def Operand.Spelled (locals : List Local) : Operand → Prop
  | const n => Text.literalMin ≤ n ∧ n ≤ Text.literalMax
  | var v => v.Spelled locals ∧ v.name ∉ ["true", "false", "null"]

/-- A call of a method, with a receiver or without one. -/
structure Call.Spelled (locals : List Local) (c : Call) : Prop where
  dispatch : c.kind = .virtual ∧ c.receiver.isSome ∨ c.kind = .static ∧ c.receiver = none
  receiver : ∀ v ∈ c.receiver, v.Spelled locals
  className : c.className = none
  method : Source.isIdentifier c.method = true
  args : ∀ o ∈ c.args, o.Spelled locals

/-- A call that initialises a new object. Its written form shows the class and the arguments only.
-/
structure Call.Constructs (locals : List Local) (c : Call) : Prop where
  kind : c.kind = .constructor
  className : ∃ name, c.className = some name ∧ Source.isQualified name = true
  args : ∀ o ∈ c.args, o.Spelled locals

/-- A declared local, a field of one or an element of one. -/
def Place.Spelled (locals : List Local) : Place → Prop
  | var v => v.Spelled locals
  | field (some base) name => base.Spelled locals ∧ Source.isIdentifier name = true
  | field none _ => False
  | element base index => base.Spelled locals ∧ index.Spelled locals

/-- The text of a right side that is kept as it is: `null`, or one word with a declared local before
the first dot or bracket. -/
def Source.Kept (locals : List Local) (s : String) : Prop :=
  s = "null" ∨ (Text.IsWord s ∧ '#' ∉ s.toList ∧ Text.endsWith s ')' = false ∧
    ∃ v : Local, v.Spelled locals ∧ Source.readBase? s = some v.name)

/-- A right side made of literals and declared locals. The least literal is missing among the
constants: on its own it is read as the inverse of a numeral that is too large. -/
def Rhs.Spelled (locals : List Local) : Rhs → Prop
  | const n => Text.literalMin < n ∧ n ≤ Text.literalMax
  | ref v => (Operand.var v).Spelled locals
  | binary _ left right => left.Spelled locals ∧ right.Spelled locals
  | call c => c.Spelled locals
  | unmodeled description => Source.Kept locals description

/-- An instruction that can be read from a statement. -/
def Instruction.Spelled (locals : List Local) : Instruction → Prop
  | assign target value => target.Spelled locals ∧ value.Spelled locals
  | branch _ left right => left.Spelled locals ∧ right.Spelled locals
  | call c => c.Spelled locals ∨ c.Constructs locals
  | nop | goto | ret => True

/-- A call that is not a constructor call is one of a method. -/
theorem Instruction.Spelled.of_call {locals : List Local} {c : Call}
    (h : (Instruction.call c).Spelled locals) (hkind : c.kind ≠ .constructor) : c.Spelled locals :=
  h.resolve_right fun hnew => hkind hnew.kind

/-! ## §3 More locals -/

section

variable {locals more : List Local} (hmore : locals ⊆ more)

include hmore

theorem Local.Spelled.mono {v : Local} (h : v.Spelled locals) : v.Spelled more := ⟨hmore h.1, h.2⟩

theorem Operand.Spelled.mono {o : Operand} (h : o.Spelled locals) : o.Spelled more := by
  cases o with
  | const n => exact h
  | var v => exact ⟨Local.Spelled.mono hmore h.1, h.2⟩

theorem Call.Spelled.mono {c : Call} (h : c.Spelled locals) : c.Spelled more where
  dispatch := h.dispatch
  receiver v hv := Local.Spelled.mono hmore (h.receiver v hv)
  className := h.className
  method := h.method
  args o ho := Operand.Spelled.mono hmore (h.args o ho)

theorem Call.Constructs.mono {c : Call} (h : c.Constructs locals) : c.Constructs more where
  kind := h.kind
  className := h.className
  args o ho := Operand.Spelled.mono hmore (h.args o ho)

theorem Place.Spelled.mono {target : Place} (h : target.Spelled locals) : target.Spelled more := by
  cases target with
  | var v => exact Local.Spelled.mono hmore h
  | field base name =>
    cases base with
    | none => exact h
    | some base => exact ⟨Local.Spelled.mono hmore h.1, h.2⟩
  | element base index => exact ⟨Local.Spelled.mono hmore h.1, Operand.Spelled.mono hmore h.2⟩

theorem Rhs.Spelled.mono {value : Rhs} (h : value.Spelled locals) : value.Spelled more := by
  cases value with
  | const n => exact h
  | ref v => exact Operand.Spelled.mono hmore (o := .var v) h
  | binary op left right => exact ⟨Operand.Spelled.mono hmore h.1, Operand.Spelled.mono hmore h.2⟩
  | call c => exact Call.Spelled.mono hmore h
  | unmodeled description =>
    rcases h with h | ⟨hword, hcomment, hends, v, hv, hbase⟩
    · exact .inl h
    · exact .inr ⟨hword, hcomment, hends, v, Local.Spelled.mono hmore hv, hbase⟩

/-- A statement is read against the locals declared before it; later ones change nothing. -/
theorem Instruction.Spelled.mono {i : Instruction} (h : i.Spelled locals) : i.Spelled more := by
  cases i with
  | assign target value => exact ⟨Place.Spelled.mono hmore h.1, Rhs.Spelled.mono hmore h.2⟩
  | branch comparator left right =>
    exact ⟨Operand.Spelled.mono hmore h.1, Operand.Spelled.mono hmore h.2⟩
  | call c => exact h.imp (Call.Spelled.mono hmore) (Call.Constructs.mono hmore)
  | nop | goto | ret => trivial

end

namespace Source

variable {locals : List Local}

/-! ## §4 Reading gives what is spelled -/

/-- A variable that was read is the declared local of that name. -/
private theorem spelled_variableNamed {v : Local} (h : variableNamed locals s = .ok v) :
    v.Spelled locals ∧ v.name = s := by
  obtain ⟨name, hname, h⟩ := bind_eq_ok_iff.mp h
  unfold identifier at hname
  unfold lookupLocal at h
  split at hname
  · rename_i hs
    obtain rfl := Except.ok.inj hname
    split at h
    · rename_i u hfind
      obtain rfl := Except.ok.inj h
      have hu : u.name = s := by simpa using List.find?_some hfind
      exact ⟨⟨List.mem_of_find?_eq_some hfind, hu ▸ hs⟩, hu⟩
    · cases h
  · cases hname

/-- An identifier that was read is one. -/
theorem isIdentifier_of_identifier {name : String} (h : identifier s = .ok name) :
    isIdentifier name = true := by
  unfold identifier at h
  split at h
  · exact Except.ok.inj h ▸ ‹_›
  · cases h

/-- The value of a literal lies within the limits. -/
theorem limits_of_literal? {n : Int} (h : Text.literal? s = some n) :
    Text.literalMin ≤ n ∧ n ≤ Text.literalMax := by
  obtain ⟨-, h⟩ := Option.filter_eq_some_iff.mp h
  exact decide_eq_true_iff.mp h

private theorem spelled_operand {o : Operand} (h : operand locals s = .ok o) :
    o.Spelled locals := by
  unfold operand at h
  split at h
  · obtain rfl := Except.ok.inj h
    exact ⟨by decide, by decide⟩
  split at h
  · obtain rfl := Except.ok.inj h
    exact ⟨by decide, by decide⟩
  split at h
  · rename_i n hn
    obtain rfl := Except.ok.inj h
    exact limits_of_literal? hn
  · rename_i htrue hother _ _
    obtain ⟨v, hv, h⟩ := bind_eq_ok_iff.mp h
    obtain rfl := Except.ok.inj h
    obtain ⟨hspelled, rfl⟩ := spelled_variableNamed hv
    refine ⟨hspelled, ?_⟩
    simp_all

private theorem spelled_arguments {args : List Operand} (h : arguments locals s = .ok args) :
    ∀ o ∈ args, o.Spelled locals := by
  unfold arguments at h
  split at h
  · obtain rfl := Except.ok.inj h
    exact List.forall_mem_nil _
  · intro o ho
    obtain ⟨text, -, htext⟩ := exists_of_mapM h o ho
    exact spelled_operand htext

private theorem spelled_call {call : Call} (h : Source.call locals s = .ok call) :
    call.Spelled locals := by
  unfold Source.call at h
  obtain ⟨⟨callee, inner⟩, -, h⟩ := bind_eq_ok_iff.mp h
  obtain ⟨args, hargs, h⟩ := bind_eq_ok_iff.mp h
  have hargs := spelled_arguments hargs
  split at h
  · obtain ⟨v, hv, h⟩ := bind_eq_ok_iff.mp h
    obtain ⟨method, hmethod, h⟩ := bind_eq_ok_iff.mp h
    obtain rfl := Except.ok.inj h
    refine ⟨.inl ⟨rfl, rfl⟩, ?_, rfl, isIdentifier_of_identifier hmethod, hargs⟩
    simpa using (spelled_variableNamed hv).1
  · obtain ⟨method, hmethod, h⟩ := bind_eq_ok_iff.mp h
    obtain rfl := Except.ok.inj h
    exact ⟨.inr ⟨rfl, rfl⟩, nofun, rfl, isIdentifier_of_identifier hmethod, hargs⟩

private theorem spelled_place {target : Place} (h : place locals s = .ok target) :
    target.Spelled locals := by
  unfold place at h
  split at h
  · obtain ⟨base, hbase, h⟩ := bind_eq_ok_iff.mp h
    obtain ⟨index, hindex, h⟩ := bind_eq_ok_iff.mp h
    obtain rfl := Except.ok.inj h
    exact ⟨(spelled_variableNamed hbase).1, spelled_operand hindex⟩
  split at h
  · obtain ⟨base, hbase, h⟩ := bind_eq_ok_iff.mp h
    obtain ⟨name, hname, h⟩ := bind_eq_ok_iff.mp h
    obtain rfl := Except.ok.inj h
    exact ⟨(spelled_variableNamed hbase).1, isIdentifier_of_identifier hname⟩
  · obtain ⟨v, hv, h⟩ := bind_eq_ok_iff.mp h
    obtain rfl := Except.ok.inj h
    exact (spelled_variableNamed hv).1

/-- The minus sign of a literal is read apart from it only if the numeral after it is not a literal:
the least literal has no inverse. -/
theorem negated?_of_literal? {n : Int} (h : Text.literal? s = some n) :
    negated? s = if n = Text.literalMin then some (String.ofList s.toList.tail) else none := by
  obtain ⟨hmin, -⟩ := limits_of_literal? h
  obtain ⟨hinteger, -⟩ := Option.filter_eq_some_iff.mp h
  -- without a minus sign there is nothing to read apart, and the number is not negative
  cases hafter : Text.after? "-" s with
  | none =>
    have hne : n ≠ Text.literalMin := by
      rintro rfl
      obtain ⟨digits, -, hdigits, -⟩ := Text.exists_of_integer?_neg hinteger (by decide)
      simp [Text.after?, hdigits, Text.dropStart?] at hafter
    simp [negated?, hafter, hne]
  | some rest =>
    have hs : s.toList = '-' :: rest.toList := Text.toList_of_after? hafter
    obtain ⟨m, hm, rfl⟩ := Text.natural?_of_integer?_minus (hs ▸ hinteger)
    -- the numeral alone is a literal unless it is one above the greatest
    have hrest : (Text.literal? rest).isNone = decide (-(m : Int) = Text.literalMin) := by
      unfold Text.literalMin at hmin ⊢
      by_cases hlarge : (m : Int) ≤ 9223372036854775807
      · have hlow : -9223372036854775808 ≤ (m : Int) := by omega
        have hne : ¬-(m : Int) = -9223372036854775808 := by omega
        simp [Text.literal?, Text.integer?_of_natural? hm, Text.literalMin, Text.literalMax, hlow,
          hlarge, hne]
      · have heq : -(m : Int) = -9223372036854775808 := by omega
        simp [Text.literal?, Text.integer?_of_natural? hm, Text.literalMin, Text.literalMax,
          hlarge, heq]
    simp [negated?, hafter, hrest, hs, Option.filter_some]

/-- A literal whose sign is not read apart is not the least one. -/
private theorem literalMin_lt_of_negated? {n : Int} (hs : negated? s = none)
    (h : Text.literal? s = some n) : Text.literalMin < n := by
  obtain ⟨hmin, -⟩ := limits_of_literal? h
  rw [negated?_of_literal? h] at hs
  split at hs
  · cases hs
  · omega

/-- A constant is written as a literal or as one of three words. -/
theorem literal?_of_operand {n : Int} (h : operand locals s = .ok (.const n)) :
    s = "true" ∧ n = 1 ∨ (s = "false" ∨ s = "null") ∧ n = 0 ∨ Text.literal? s = some n := by
  unfold operand at h
  split at h
  · exact .inl ⟨‹_›, (Operand.const.inj (Except.ok.inj h)).symm⟩
  split at h
  · exact .inr (.inl ⟨‹_›, (Operand.const.inj (Except.ok.inj h)).symm⟩)
  split at h
  · rename_i hn
    obtain rfl := Operand.const.inj (Except.ok.inj h)
    exact .inr (.inr hn)
  · obtain ⟨v, -, h⟩ := bind_eq_ok_iff.mp h
    cases h

private theorem spelled_simpleRhs {value : Rhs} (hword : Text.IsWord s) (hcomment : '#' ∉ s.toList)
    (hcall : Text.endsWith s ')' = false) (h : simpleRhs locals s = .ok value) :
    value.Spelled locals := by
  unfold simpleRhs at h
  split at h
  · obtain rfl := Except.ok.inj h
    exact .inl rfl
  split at h
  · obtain ⟨o, ho, h⟩ := bind_eq_ok_iff.mp h
    obtain rfl := Except.ok.inj h
    -- an inverse has become a difference from zero
    exact ⟨⟨by decide, by decide⟩, spelled_operand ho⟩
  rename_i hnegated
  split at h
  · rename_i base hbase
    obtain ⟨v, hv, h⟩ := bind_eq_ok_iff.mp h
    obtain rfl := Except.ok.inj h
    obtain ⟨hspelled, rfl⟩ := spelled_variableNamed hv
    exact .inr ⟨hword, hcomment, hcall, v, hspelled, hbase⟩
  · obtain ⟨o, ho, h⟩ := bind_eq_ok_iff.mp h
    have hspelled := spelled_operand ho
    cases o with
    | const n =>
      obtain rfl := Except.ok.inj h
      refine ⟨?_, hspelled.2⟩
      rcases literal?_of_operand ho with ⟨-, rfl⟩ | ⟨-, rfl⟩ | hn
      · decide
      · decide
      · exact literalMin_lt_of_negated? hnegated hn
    | var v =>
      obtain rfl := Except.ok.inj h
      exact hspelled

/-- A right side is read after the white space around it has been dropped. -/
theorem spelled_rhs {value : Rhs} (hcomment : '#' ∉ s.toList)
    (h : rhs locals (Text.trim s) = .ok value) : value.Spelled locals := by
  unfold rhs at h
  -- a call, a binary operation or a single word
  split at h
  · obtain ⟨call, hcall, h⟩ := bind_eq_ok_iff.mp h
    obtain rfl := Except.ok.inj h
    exact spelled_call hcall
  rename_i hends
  split at h
  · split at h
    · cases h
    · obtain ⟨l, hl, h⟩ := bind_eq_ok_iff.mp h
      obtain ⟨r, hr, h⟩ := bind_eq_ok_iff.mp h
      obtain rfl := Except.ok.inj h
      exact ⟨spelled_operand hl, spelled_operand hr⟩
  · rename_i single hwords
    obtain ⟨hword, hsub⟩ := Text.of_mem_words (hwords ▸ List.mem_singleton_self single)
    have hsub := List.Subset.trans hsub (Text.trim_subset s)
    have hlast := Text.endsWith_of_words (Text.getLast?_trim s) hwords ')'
    exact spelled_simpleRhs hword (fun hc => hcomment (hsub hc))
      (hlast.trans (Bool.eq_false_iff.mpr hends)) h
  · cases h

private theorem spelled_assignment {left right : String} {i : Instruction}
    (hcomment : '#' ∉ right.toList) (h : assignment locals left (Text.trim right) = .ok i) :
    i.Spelled locals := by
  unfold assignment at h
  obtain ⟨target, htarget, h⟩ := bind_eq_ok_iff.mp h
  have hplace := spelled_place htarget
  split at h
  · split at h
    · obtain ⟨⟨className, inner⟩, -, h⟩ := bind_eq_ok_iff.mp h
      obtain ⟨className', hname, h⟩ := bind_eq_ok_iff.mp h
      obtain ⟨args, hargs, h⟩ := bind_eq_ok_iff.mp h
      obtain rfl := Except.ok.inj h
      obtain ⟨rfl, hqualified⟩ := typeName_eq_ok hname
      exact .inr ⟨rfl, ⟨_, rfl, hqualified⟩, spelled_arguments hargs⟩
    · cases h
  · obtain ⟨value, hvalue, h⟩ := bind_eq_ok_iff.mp h
    obtain rfl := Except.ok.inj h
    exact ⟨hplace, spelled_rhs hcomment hvalue⟩

/-- An instruction that was read from a statement is spelled. -/
theorem spelled_statement {i : Instruction} {label : Option String} (hcomment : '#' ∉ s.toList)
    (h : statement locals s = .ok (i, label)) : i.Spelled locals := by
  unfold statement at h
  -- of the statements that are known by their first word only a branch has something to be spelled
  split at h
  · split at h
    · cases h
    · obtain ⟨l, hl, h⟩ := bind_eq_ok_iff.mp h
      obtain ⟨r, hr, h⟩ := bind_eq_ok_iff.mp h
      obtain ⟨rfl, -⟩ := Prod.mk.inj (Except.ok.inj h)
      exact ⟨spelled_operand hl, spelled_operand hr⟩
  · cases h
  · obtain ⟨rfl, -⟩ := Prod.mk.inj (Except.ok.inj h)
    trivial
  · obtain ⟨rfl, -⟩ := Prod.mk.inj (Except.ok.inj h)
    trivial
  · obtain ⟨value, -, h⟩ := bind_eq_ok_iff.mp h
    obtain ⟨rfl, -⟩ := Prod.mk.inj (Except.ok.inj h)
    trivial
  · obtain ⟨rfl, -⟩ := Prod.mk.inj (Except.ok.inj h)
    trivial
  split at h
  · rename_i left right hsplit
    obtain ⟨assigned, hassigned, h⟩ := bind_eq_ok_iff.mp h
    obtain ⟨rfl, -⟩ := Prod.mk.inj (Except.ok.inj h)
    apply spelled_assignment _ hassigned
    -- a comment in the right side would be one in the statement
    intro hmem
    apply hcomment
    rw [(Text.toList_of_splitOnce hsplit).1]
    exact List.mem_append_right _ (List.mem_cons_of_mem _ hmem)
  split at h
  · obtain ⟨call, hcall, h⟩ := bind_eq_ok_iff.mp h
    obtain ⟨rfl, -⟩ := Prod.mk.inj (Except.ok.inj h)
    exact .inl (spelled_call hcall)
  · cases h

end Source

end RangeGuard
