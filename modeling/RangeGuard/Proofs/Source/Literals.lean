import RangeGuard.Proofs.Source.Listing

/-!
# Literals as right sides

A constant is read in two ways. As an operand the whole word is read at once; as the right side of
an assignment a minus sign is looked at first, and it is the sign of a literal only if the numeral
after it is a literal too. The two ways agree for every constant but the least one, whose numeral
without the sign is too large: it is an operand everywhere, but an assignment of it is refused.

Three names have to be kept apart as well. A local whose name starts a branch cannot be assigned at
all. A local whose name starts a declaration can be, as far as the statement is concerned, but the
line is taken for a declaration before it is read as a statement.

The results are about methods that some lines of a text have led to (`Source.MethodDraft.UnderWay`),
so locals have distinct names and can be looked up.
-/

namespace RangeGuard

namespace Source

variable {s t : String} {locals : List Local} {n : Int} {v : Local}

/-! ## §1 The text of a constant -/

/-- A literal is a sign, perhaps, and digits. -/
private theorem madeOf_of_literal? (h : Text.literal? s = some n) : s ≠ "" ∧ MadeOf ['+'] s := by
  obtain ⟨hinteger, -⟩ := Option.filter_eq_some_iff.mp h
  obtain ⟨digits, m, hm, hcs⟩ := Text.exists_of_integer? hinteger
  obtain ⟨hne, hdigit⟩ := Text.isDigit_of_natural? hm
  have hdigits : ∀ c ∈ digits, isPlain c = true ∨ c ∈ ['+'] :=
    fun c hc => .inl (isPlain_of_isDigit (hdigit c hc))
  rw [ne_eq, ← String.toList_eq_nil_iff]
  unfold MadeOf
  rcases hcs with ⟨hs, -⟩ | ⟨hs | hs, -⟩
  · rw [hs, List.forall_mem_cons]
    exact ⟨List.cons_ne_nil _ _, .inl rfl, hdigits⟩
  · rw [hs, List.forall_mem_cons]
    exact ⟨List.cons_ne_nil _ _, .inr (List.mem_singleton_self _), hdigits⟩
  · rw [hs]
    exact ⟨hne, hdigits⟩

/-- A constant is one word of the characters of names and numerals, with a plus sign perhaps. -/
theorem madeOf_of_operand (h : operand locals s = .ok (.const n)) : s ≠ "" ∧ MadeOf ['+'] s := by
  rcases literal?_of_operand h with ⟨rfl, -⟩ | ⟨rfl | rfl, -⟩ | h
  · decide
  · decide
  · decide
  · exact madeOf_of_literal? h

/-- A numeral that is too large is neither a literal nor a name. -/
theorem operand_digits {m : Nat} (hdigits : Text.natural? s.toList = some m)
    (hlarge : Text.literal? s = none) :
    operand locals s = .error (.invalidIdentifier s) := by
  obtain ⟨hne, hdigit⟩ := Text.isDigit_of_natural? hdigits
  obtain ⟨first, rest, hs⟩ := List.exists_cons_of_ne_nil hne
  have hfirst : first.isDigit = true := hdigit first (hs ▸ List.mem_cons_self)
  have hname : isIdentifier s = false := by
    simp [isIdentifier, hs, startsName_eq_false_of_isDigit hfirst]
  -- the words that stand for numbers do not start with a digit
  have hword : ∀ w : String, w.toList.head?.any Char.isDigit = false → s ≠ w := by
    rintro w hw rfl
    simp [hs, hfirst] at hw
  rw [operand, if_neg (hword "true" (by decide)),
    if_neg (not_or.mpr ⟨hword "false" (by decide), hword "null" (by decide)⟩), hlarge]
  simp [variableNamed, identifier, hname, bind, Except.bind]

/-! ## §2 Right sides -/

/-- A word that is a constant as an operand is the same constant as a right side, but for the least
one. -/
theorem simpleRhs_of_operand (hnull : s ≠ "null") (h : operand locals s = .ok (.const n)) :
    simpleRhs locals s =
      if n = Text.literalMin then .error (.invalidIdentifier (String.ofList s.toList.tail))
      else .ok (.const n) := by
  have hmade := (madeOf_of_operand h).2
  have hbase : readBase? s = none :=
    readBase?_eq_none (hmade.not_mem (by decide) (by decide))
      (hmade.not_mem (by decide) (by decide))
  rw [simpleRhs, if_neg hnull]
  -- the words that stand for numbers have no sign to be read apart
  rcases literal?_of_operand h with ⟨rfl, rfl⟩ | ⟨rfl | rfl, rfl⟩ | hn
  · rfl
  · rfl
  · exact absurd rfl hnull
  · have hnegated := negated?_of_literal? hn
    by_cases hleast : n = Text.literalMin
    · -- what follows the sign is read as an operand, and it is none
      subst hleast
      obtain ⟨hinteger, -⟩ := Option.filter_eq_some_iff.mp hn
      obtain ⟨digits, m, hs, hm, -⟩ := Text.exists_of_integer?_neg hinteger (by decide)
      rw [if_pos rfl, hs, List.tail_cons] at hnegated
      have hlarge : Text.literal? (String.ofList digits) = none :=
        Option.isNone_iff_eq_none.mp (Option.filter_eq_some_iff.mp hnegated).2
      have hrest : operand locals (String.ofList digits) =
          .error (.invalidIdentifier (String.ofList digits)) :=
        operand_digits (by rwa [String.toList_ofList]) hlarge
      rw [hnegated, if_pos rfl, hs, List.tail_cons]
      dsimp only
      rw [hrest]
      rfl
    · rw [if_neg hleast] at hnegated
      rw [hnegated, hbase, h, if_neg hleast]
      rfl

/-! ## §3 Assignments of one word -/

private theorem words_assign_of_isWord (hv : v.Spelled locals) (ht : Text.IsWord t) :
    Text.words (v.name ++ " = " ++ t) = [v.name, "=", t] := by
  rw [words_assign (plain_of_isIdentifier hv.2).isWord, Text.words_of_isWord ht]

section

variable (hnames : (locals.map (·.name)).Nodup)

include hnames

/-- The assignment of one word: neither a call nor a constructor call. -/
private theorem assignment_of_isWord (hv : v.Spelled locals) (ht : Text.IsWord t)
    (hcall : Text.endsWith t ')' = false) :
    assignment locals v.name t = (simpleRhs locals t).map (.assign (.var v)) := by
  have htarget : (Place.var v).Spelled locals := hv
  have hplace := place_text hnames htarget
  rw [Place.text] at hplace
  -- a constructor call has a blank after its first word
  have hnew : Text.after? "new " t = none := by
    rw [Option.eq_none_iff_forall_ne_some]
    intro rest hrest
    have hblank : ' ' ∈ t.toList := by simp [Text.toList_of_after? hrest]
    exact absurd (ht.2 _ hblank) (by decide)
  rw [assignment, hplace, hnew, rhs_of_isWord ht hcall]
  cases simpleRhs locals t <;> rfl

/-- Only a local whose name starts a branch cannot be assigned. -/
theorem statement_of_isWord (hv : v.Spelled locals) (ht : Text.IsWord t)
    (hcall : Text.endsWith t ')' = false) :
    statement locals (v.name ++ " = " ++ t) = if v.name = "if" then .error .malformedBranch
      else (simpleRhs locals t).map fun value => (.assign (.var v) value, none) := by
  have hplain := plain_of_isIdentifier hv.2
  have hwords := words_assign_of_isWord hv ht
  have hsplit : Text.splitOnce '=' (v.name ++ " = " ++ t) = some (v.name ++ " ", " " ++ t) := by
    apply Text.splitOnce_eq_some
    · simp
    · simp [hplain.not_mem (c := '=') (by decide)]
  -- a branch is told by its first word alone
  by_cases hif : v.name = "if"
  · rw [if_pos hif, statement, hwords, hif]
    rfl
  · rw [if_neg hif]
    refine statement_of_words hwords hif (fun _ => Nat.le_refl 2)
      (fun left right hparts => ?_) fun hnone => ?_
    · obtain ⟨rfl, rfl⟩ := Prod.mk.inj (Option.some.inj (hsplit.symm.trans hparts))
      rw [Text.trim_append_blank hplain.isWord.tight, Text.trim_blank_append ht.tight,
        assignment_of_isWord hnames hv ht hcall]
      cases simpleRhs locals t <;> rfl
    · cases hsplit.symm.trans hnone

end

/-! ## §4 Methods -/

namespace MethodDraft

variable {m : MethodDraft}

/-- Some lines of a text have been read, and the method they end in is not finished. -/
def UnderWay (m : MethodDraft) : Prop := ∃ c lines, readLines .start 1 lines = .ok (.inMethod c m)

/-- The locals of a method under way have distinct names. -/
theorem UnderWay.names (hm : m.UnderWay) : (m.locals.map (·.name)).Nodup := by
  obtain ⟨c, lines, hlines⟩ := hm
  have hstart : Progress.start.Declared := trivial
  exact (Progress.of_readLines Progress.Declared.readLine hstart hlines).2.names

/-- They can be written, and `this` is one of them. -/
private theorem UnderWay.spelled (hm : m.UnderWay) (hv : v ∈ m.locals) : v.Spelled m.locals := by
  obtain ⟨c, lines, hlines⟩ := hm
  have hstart : Progress.start.Declarable := trivial
  obtain ⟨-, -, rest, hlocals, -, hrest⟩ :=
    Progress.of_readLines Progress.Declarable.readLine hstart hlines
  refine ⟨hv, ?_⟩
  rw [hlocals, List.mem_cons] at hv
  rcases hv with rfl | hv
  · exact (by decide : isIdentifier "this" = true)
  · exact (hrest v hv).1

/-- As a line, an assignment of one word has the three words of a declaration. It is read as one if
the local has the name of the first of them, and the sign of the assignment is not the name of a
type. -/
theorem addLine_assign (hv : v.Spelled m.locals) (ht : Text.IsWord t) (line : Nat) :
    m.addLine line (v.name ++ " = " ++ t) =
      if v.name = "param" ∨ v.name = "local" then .error (.invalidTypeName "=")
      else m.addStatement line (v.name ++ " = " ++ t) := by
  -- the words of the declaration would be its keyword, the sign and the constant
  have hsign : ∀ isParam, m.declare isParam "=" t = .error (.invalidTypeName "=") := fun _ => rfl
  unfold addLine
  rw [words_assign_of_isWord hv ht]
  by_cases hparam : v.name = "param"
  · rw [if_pos (.inl hparam), hparam]
    exact hsign true
  · by_cases hlocal : v.name = "local"
    · rw [if_pos (.inr hlocal), hlocal]
      exact hsign false
    · rw [if_neg (not_or.mpr ⟨hparam, hlocal⟩)]
      split
      · exact absurd (List.cons.inj ‹_›).1 hparam
      · exact absurd (List.cons.inj ‹_›).1 hlocal
      · cases (List.cons.inj ‹_›).2
      · rfl

/-- A word that is a constant as an operand can be assigned to a local, which then gets the same
constant. As a statement there are two exceptions: a local whose name starts a branch, and the least
constant. As a line there are two more: the locals whose names start a declaration. -/
theorem addStatement_constant (hm : m.UnderWay) (hv : v ∈ m.locals) (hnull : t ≠ "null")
    (h : operand m.locals t = .ok (.const n)) (line : Nat) :
    m.addStatement line (v.name ++ " = " ++ t) =
      (if v.name = "if" then .error .malformedBranch
      else if n = Text.literalMin then
        .error (.invalidIdentifier (String.ofList t.toList.tail))
      else .ok { m with
        statements := m.statements ++ [⟨.assign (.var v) (.const n), none, line⟩] }) ∧
    m.addLine line (v.name ++ " = " ++ t) =
      if v.name = "param" ∨ v.name = "local" then .error (.invalidTypeName "=")
      else m.addStatement line (v.name ++ " = " ++ t) := by
  obtain ⟨hne, hmade⟩ := madeOf_of_operand h
  have hword : Text.IsWord t := hmade.isWord hne (by decide)
  have hcall : Text.endsWith t ')' = false :=
    Text.endsWith_eq_false (hmade.not_mem (by decide) (by decide))
  refine ⟨?_, addLine_assign (hm.spelled hv) hword line⟩
  rw [addStatement, statement_of_isWord hm.names (hm.spelled hv) hword hcall,
    simpleRhs_of_operand hnull h]
  split
  · rfl
  split
  · rfl
  · rfl

/-- A method with two locals, one of which has the name of a keyword. -/
def twoLocals : MethodDraft where
  name := "run"
  startLine := 2
  params := []
  locals := [⟨"this", .object "Least"⟩, ⟨"x", .int⟩, ⟨"if", .int⟩]
  statements := []
  labels := []

private theorem underWay_twoLocals : twoLocals.UnderWay :=
  ⟨⟨"Least", [], []⟩, ["class Least", "method run", "local int x", "local int if"], rfl⟩

/-- Leading zeros do no harm, and a truth value is a constant too. -/
theorem addStatement_constant_twoLocals :
    (operand twoLocals.locals "-09223372036854775807" = .ok (.const (-9223372036854775807)) ∧
      twoLocals.addStatement 5 "x = -09223372036854775807" =
        .ok { twoLocals with
          statements := [⟨.assign (.var ⟨"x", .int⟩) (.const (-9223372036854775807)), none, 5⟩] } ∧
      twoLocals.addLine 5 "x = -09223372036854775807" =
        twoLocals.addStatement 5 "x = -09223372036854775807") ∧
    operand twoLocals.locals "true" = .ok (.const 1) ∧
      twoLocals.addStatement 5 "if = true" = .error .malformedBranch := by
  have hliteral : operand twoLocals.locals "-09223372036854775807" =
      .ok (.const (-9223372036854775807)) := eq_ok_of_toOption (by decide +kernel)
  have htruth : operand twoLocals.locals "true" = .ok (.const 1) := rfl
  refine ⟨⟨hliteral, ?_⟩, htruth, ?_⟩
  · exact addStatement_constant underWay_twoLocals (v := ⟨"x", .int⟩) (by decide) (by decide)
      hliteral 5
  · exact (addStatement_constant underWay_twoLocals (v := ⟨"if", .int⟩) (by decide) (by decide)
      htruth 5).1

/-- The least constant is an operand, but it cannot be assigned. -/
theorem least_constant_refused :
    twoLocals.UnderWay ∧ ⟨"x", .int⟩ ∈ twoLocals.locals ∧
    operand twoLocals.locals "-9223372036854775808" = .ok (.const (-9223372036854775808)) ∧
    twoLocals.addStatement 5 "x = -9223372036854775808" =
      .error (.invalidIdentifier "9223372036854775808") :=
  ⟨underWay_twoLocals, by decide, rfl, rfl⟩

end MethodDraft

end Source

end RangeGuard
