import Mathlib.Data.List.Induction
import RangeGuard.Check.Verdict
import RangeGuard.Drawing.Dot
import RangeGuard.Proofs.Source.Listing

/-!
# Where a label ends

In the DOT language a backslash in a quoted string forms a pair with the character after it, and the
first quote outside all pairs closes the string. A drawing puts a backslash before each quote of a
label and leaves backslashes alone. So a quote is safe if the backslashes directly before it are
paired among themselves, that is, if their number is even; an odd number of them takes the new
backslash as a partner, and the quote closes the string. In the same way an odd number of
backslashes at the end takes the closing quote.

Names, numbers and states have neither quotes nor backslashes. Of an accepted text only the right
sides that are kept as they are can bring them into a label, and then all that matters is where
backslashes stand in such a text. If the label shows a state, the line break before the state keeps
backslashes at the end of the text from the closing quote.

## The argument

- *Escaped texts* (§1, §2). The string is read from the front, but whether a quote is safe depends
  on what stands before it. The induction therefore carries the text that is done, and the reader is
  given the one backslash of it that still waits for a partner (`Drawing.waiting`). The result is
  exact: `Drawing.quotedString?_escapeQuotes` is an equivalence.
- *Labels* (§3, §4). Texts without quotes and backslashes can be left out at both ends, so the
  condition on the label becomes one on the text that the instruction keeps.
- *Drawings* (§5). The label is the first attribute in the line of its node.
-/

namespace RangeGuard

namespace Drawing

/-! ## §1 Quoted strings -/

/-- Reads a quoted string from behind its opening quote: what stands in it, and what follows its
closing quote. -/
def quotedString? : List Char → Option (List Char × List Char)
  | [] => none
  | '\\' :: c :: rest => (quotedString? rest).map fun r => ('\\' :: c :: r.1, r.2)
  | '"' :: rest => some ([], rest)
  | c :: rest => (quotedString? rest).map fun r => (c :: r.1, r.2)

/-- The number of backslashes at the end. -/
def trailingBackslashes (cs : List Char) : Nat := (cs.reverse.takeWhile (· = '\\')).length

/-- Directly before each quote there is an even number of backslashes. -/
def EvenBeforeQuotes (cs : List Char) : Prop :=
  ∀ before after, cs = before ++ '"' :: after → 2 ∣ trailingBackslashes before

/-- The condition by positions, which makes it decidable. -/
private theorem evenBeforeQuotes_iff {cs : List Char} :
    EvenBeforeQuotes cs ↔ ∀ k < cs.length, cs[k]? = some '"' →
      2 ∣ trailingBackslashes (cs.take k) := by
  constructor
  · intro h k hk hquote
    apply h (cs.take k) (cs.drop (k + 1))
    rw [← (List.getElem?_eq_some_iff.mp hquote).2, List.getElem_cons_drop, List.take_append_drop]
  · rintro h before after rfl
    simpa using h before.length (by simp) (by simp)

instance decidableEvenBeforeQuotes (cs : List Char) : Decidable (EvenBeforeQuotes cs) :=
  decidable_of_iff _ evenBeforeQuotes_iff.symm

section

variable {c : Char} {cs done rest s : List Char}

/-- A pair is read as a whole. -/
private theorem quotedString?_pair :
    quotedString? ('\\' :: c :: cs) = some ('\\' :: c :: s, rest) ↔
      quotedString? cs = some (s, rest) := by
  simp [quotedString?]

/-- A character that is neither a quote nor a backslash is read alone. -/
private theorem quotedString?_cons (hquote : c ≠ '"') (hbackslash : c ≠ '\\') :
    quotedString? (c :: cs) = some (c :: s, rest) ↔ quotedString? cs = some (s, rest) := by
  rw [quotedString?]
  · simp
  · simp [hbackslash]
  · simp [hquote]

/-- A backslash continues the run at the end, any other character ends it. -/
private theorem trailingBackslashes_concat (cs : List Char) (c : Char) :
    trailingBackslashes (cs ++ [c]) = if c = '\\' then trailingBackslashes cs + 1 else 0 := by
  by_cases hc : c = '\\' <;> simp [trailingBackslashes, hc]

/-! ## §2 Pairs in an escaped text -/

/-- After the text `done`, each quote of `cs` and its end have an even number of backslashes before
them. -/
def SealedAfter (done cs : List Char) : Prop :=
  (∀ before after, cs = before ++ '"' :: after → 2 ∣ trailingBackslashes (done ++ before)) ∧
    2 ∣ trailingBackslashes (done ++ cs)

private theorem sealedAfter_nil : SealedAfter done [] ↔ 2 ∣ trailingBackslashes done := by
  simp [SealedAfter]

/-- One more character joins the text that is done. -/
private theorem sealedAfter_cons :
    SealedAfter done (c :: cs) ↔ (c = '"' → 2 ∣ trailingBackslashes done) ∧
      SealedAfter (done ++ [c]) cs := by
  simp only [SealedAfter, List.append_assoc, List.singleton_append, ← and_assoc]
  refine and_congr_left fun _ => ⟨fun h => ⟨?_, ?_⟩, ?_⟩
  · rintro rfl
    simpa using h [] cs rfl
  · rintro before after rfl
    exact h (c :: before) after rfl
  · -- a quote is the first character or one of the rest
    rintro ⟨hfirst, hrest⟩ before after hsplit
    rcases List.cons_eq_append_iff.mp hsplit with ⟨rfl, hquote⟩ | ⟨before, rfl, hcs⟩
    · simpa using hfirst (List.cons.inj hquote).1.symm
    · exact hrest before after hcs

/-- The backslash at the end of a text that waits for the other character of its pair. -/
def waiting (done : List Char) : List Char := if 2 ∣ trailingBackslashes done then [] else ['\\']

private theorem waiting_eq_nil_iff : waiting done = [] ↔ 2 ∣ trailingBackslashes done := by
  unfold waiting
  split
  · exact iff_of_true rfl ‹_›
  · exact iff_of_false (List.cons_ne_nil _ _) ‹_›

private theorem waiting_cases (done : List Char) : waiting done = [] ∨ waiting done = ['\\'] := by
  unfold waiting
  split
  · exact .inl rfl
  · exact .inr rfl

/-- A backslash waits unless one was waiting for it. -/
theorem waiting_concat (done : List Char) (c : Char) :
    waiting (done ++ [c]) = if c = '\\' ∧ waiting done = [] then ['\\'] else [] := by
  rw [waiting, trailingBackslashes_concat]
  by_cases hc : c = '\\'
  · rw [if_pos hc]
    by_cases hdone : 2 ∣ trailingBackslashes done
    · rw [if_neg (by omega), if_pos ⟨hc, waiting_eq_nil_iff.mpr hdone⟩]
    · rw [if_pos (by omega), if_neg fun h => hdone (waiting_eq_nil_iff.mp h.2)]
  · rw [if_neg hc, if_pos (Nat.dvd_zero 2), if_neg fun h => hc h.1]

/-- What a drawing writes for a character of a label. -/
def escaped (c : Char) : List Char := if c = '"' then ['\\', '"'] else [c]

private theorem toList_escapeQuotes (s : String) :
    (escapeQuotes s).toList = s.toList.flatMap escaped :=
  String.toList_ofList

/-- The rest of an escaped text is read, with the backslash that waits before it, up to the closing
quote. -/
theorem quotedString?_flatMap_escaped (done cs rest : List Char) :
    quotedString? (waiting done ++ (cs.flatMap escaped ++ '"' :: rest)) =
      some (waiting done ++ cs.flatMap escaped, rest) ↔ SealedAfter done cs := by
  -- one more character joins `done`; it is read alone, or in a pair with the backslash that waits
  induction cs generalizing done with
  | nil =>
    rw [sealedAfter_nil, ← waiting_eq_nil_iff]
    rcases waiting_cases done with hdone | hdone
    · simp [hdone, quotedString?]
    · simp [hdone, quotedString?]
  | cons c cs ih =>
    rw [sealedAfter_cons, ← ih, ← waiting_eq_nil_iff, waiting_concat, List.flatMap_cons]
    by_cases hquote : c = '"'
    · rcases waiting_cases done with hdone | hdone
      · simp [hquote, hdone, escaped, quotedString?_pair]
      · simp [hquote, hdone, escaped, quotedString?]
    by_cases hbackslash : c = '\\'
    · rcases waiting_cases done with hdone | hdone
      · simp [hbackslash, hdone, escaped]
      · simp [hbackslash, hdone, escaped, quotedString?_pair]
    · rcases waiting_cases done with hdone | hdone
      · simp [hquote, hbackslash, hdone, escaped, quotedString?_cons hquote hbackslash]
      · simp [hquote, hbackslash, hdone, escaped, quotedString?_pair]

end

/-- An escaped text is read back if and only if the backslashes before its quotes and at its end are
paired. -/
theorem quotedString?_escapeQuotes (s after : String) :
    quotedString? (escapeQuotes s ++ "\"" ++ after).toList =
      some ((escapeQuotes s).toList, after.toList) ↔
      EvenBeforeQuotes s.toList ∧ 2 ∣ trailingBackslashes s.toList := by
  have hstart : waiting [] = [] := rfl
  have hread := quotedString?_flatMap_escaped [] s.toList after.toList
  rw [hstart, List.nil_append, List.nil_append] at hread
  rw [String.toList_append, String.toList_append, List.append_assoc, toList_escapeQuotes]
  exact hread

/-! ## §3 Texts without quotes and backslashes -/

/-- Neither a quote nor a backslash. -/
def Bare (cs : List Char) : Prop := '"' ∉ cs ∧ '\\' ∉ cs

section

variable {as bs cs : List Char}

private theorem bare_of_madeOf {s : String} {marks : List Char} (h : Source.MadeOf marks s)
    (hmarks : Bare marks) : Bare s.toList :=
  ⟨h.not_mem (by decide) hmarks.1, h.not_mem (by decide) hmarks.2⟩

/-- A bare text is left as it is. -/
private theorem escapeQuotes_of_bare {s : String} (h : Bare s.toList) : escapeQuotes s = s := by
  have hsame : ∀ c ∈ s.toList, escaped c = [c] := fun c hc => if_neg (ne_of_mem_of_not_mem hc h.1)
  rw [← String.toList_inj, toList_escapeQuotes, List.flatMap_congr hsame, List.flatMap_singleton']

/-- A text at the end that has no backslashes and is not empty. -/
theorem trailingBackslashes_append_right (hcs : '\\' ∉ cs) (hne : cs ≠ []) (as : List Char) :
    trailingBackslashes (as ++ cs) = 0 := by
  obtain ⟨init, last, rfl⟩ := (List.eq_nil_or_concat cs).resolve_left hne
  rw [List.concat_eq_append, ← List.append_assoc, trailingBackslashes_concat, if_neg]
  rintro rfl
  simp at hcs

private theorem trailingBackslashes_of_not_mem (h : '\\' ∉ cs) : trailingBackslashes cs = 0 := by
  by_cases hne : cs = []
  · rw [hne]
    rfl
  · exact trailingBackslashes_append_right h hne []

/-- A text without backslashes at the start does not count. -/
private theorem trailingBackslashes_append (has : '\\' ∉ as) (cs : List Char) :
    trailingBackslashes (as ++ cs) = trailingBackslashes cs := by
  -- a backslash at the end continues the run before it, and any other character ends it
  induction cs using List.reverseRecOn with
  | nil =>
    rw [List.append_nil, trailingBackslashes_of_not_mem has,
      trailingBackslashes_of_not_mem List.not_mem_nil]
  | append_singleton cs c ih =>
    rw [← List.append_assoc, trailingBackslashes_concat, trailingBackslashes_concat, ih]

/-- A bare text at the start does not count. -/
private theorem evenBeforeQuotes_append (has : Bare as) :
    EvenBeforeQuotes (as ++ cs) ↔ EvenBeforeQuotes cs := by
  constructor
  · intro h before after hcs
    rw [← trailingBackslashes_append has.2]
    exact h (as ++ before) after (by rw [hcs, List.append_assoc])
  · intro h before after hsplit
    rcases List.append_eq_append_iff.mp hsplit with ⟨more, rfl, hcs⟩ | ⟨more, hmore, hafter⟩
    · rw [trailingBackslashes_append has.2]
      exact h more after hcs
    · -- the quote cannot stand before `cs`
      cases more with
      | nil =>
        rw [List.append_nil] at hmore
        rw [← hmore, trailingBackslashes_of_not_mem has.2]
        exact Nat.dvd_zero 2
      | cons c more =>
        obtain ⟨rfl, -⟩ := List.cons.inj hafter
        exact absurd (by simp [hmore]) has.1

/-- A text without quotes at the end does not count. -/
private theorem evenBeforeQuotes_append_right (hcs : '"' ∉ cs) :
    EvenBeforeQuotes (as ++ cs) ↔ EvenBeforeQuotes as := by
  constructor
  · rintro h before after rfl
    exact h before (after ++ cs) (List.append_assoc _ _ _)
  · intro h before after hsplit
    -- the quote stands before `cs`, since `cs` has none
    rcases List.append_eq_append_iff.mp hsplit with ⟨more, rfl, rfl⟩ | ⟨more, rfl, hafter⟩
    · simp at hcs
    · cases more with
      | nil =>
        rw [List.nil_append] at hafter
        exact absurd (hafter ▸ List.mem_cons_self) hcs
      | cons c more =>
        obtain ⟨rfl, -⟩ := List.cons.inj hafter
        exact h before more rfl

end

end Drawing

/-! ## §4 What labels are made of -/

namespace Source

/-- The marks between the names and numbers of an instruction. -/
def instructionMarks : List Char :=
  [' ', '.', ',', '(', ')', '[', ']', '=', '<', '>', '!', '+', '*', '/', '%']

/-- The marks between the names and numbers of a state. -/
def stateMarks : List Char := [' ', ',', '[', ']', '\x7b', '\x7d', '+', '-', '∞', '∈', '⊥']

private theorem madeOf_of_subset {marks : List Char} {s : String} (h : s.toList ⊆ marks) :
    MadeOf marks s :=
  fun _ hc => .inr (h hc)

variable {locals : List Local}

private theorem madeOf_constructor {call : Call} (h : call.Constructs locals) :
    MadeOf instructionMarks call.text := by
  obtain ⟨kind, receiver, className, method, args⟩ := call
  obtain rfl : kind = .constructor := h.kind
  obtain ⟨name, rfl, hname⟩ := h.className
  simp only [Call.text, madeOf_append]
  exact ⟨⟨by decide, (madeOf_of_isQualified hname).mono (by decide)⟩, ⟨by decide,
    (madeOf_arguments h.args).mono (by decide)⟩, by decide⟩

end Source

/-- The part of a right side that is kept as it was written. -/
def Rhs.keptText : Rhs → String
  | unmodeled description => description
  | _ => ""

/-- The part of an instruction that is kept as it was written. -/
def Instruction.keptText : Instruction → String
  | assign _ value => value.keptText
  | _ => ""

section

variable {locals : List Local}

/-- Only a right side that is kept has other characters than those of instructions. -/
private theorem Rhs.exists_text_eq {value : Rhs} (h : value.Spelled locals) :
    ∃ head, Source.MadeOf Source.instructionMarks head ∧ value.text = head ++ value.keptText := by
  cases value with
  | const n => exact ⟨_, (Source.plain_toString n).madeOf _, String.append_empty.symm⟩
  | ref v => exact ⟨_, (Source.plain_of_isIdentifier h.1.2).madeOf _, String.append_empty.symm⟩
  | binary op left right =>
    refine ⟨_, ?_, String.append_empty.symm⟩
    have hsymbol : Source.MadeOf Source.instructionMarks op.symbol := by cases op <;> decide
    simp only [Rhs.text, Source.madeOf_append]
    exact ⟨⟨⟨⟨(Source.plain_text h.1).madeOf _, by decide⟩, hsymbol⟩, by decide⟩,
      (Source.plain_text h.2).madeOf _⟩
  | call call => exact ⟨_, (Source.madeOf_call h).mono (by decide), String.append_empty.symm⟩
  | unmodeled description => exact ⟨"", by decide, String.empty_append.symm⟩

/-- Besides the text that is kept, an instruction has names, numbers and marks. -/
theorem Instruction.exists_text_eq {i : Instruction} (h : i.Spelled locals) :
    ∃ head, Source.MadeOf Source.instructionMarks head ∧ i.text = head ++ i.keptText := by
  cases i with
  | assign target value =>
    obtain ⟨head, hhead, htext⟩ := Rhs.exists_text_eq h.2
    refine ⟨target.text ++ " = " ++ head, ?_, ?_⟩
    · simp only [Source.madeOf_append]
      exact ⟨⟨(Source.madeOf_place h.1).mono (by decide), by decide⟩, hhead⟩
    · simp only [Instruction.text, htext, keptText, String.append_assoc]
  | branch comparator left right =>
    refine ⟨_, ?_, String.append_empty.symm⟩
    have hsymbol : Source.MadeOf Source.instructionMarks comparator.symbol := by
      cases comparator <;> decide
    simp only [Instruction.text, Source.madeOf_append]
    exact ⟨⟨⟨⟨⟨by decide, (Source.plain_text h.1).madeOf _⟩, by decide⟩, hsymbol⟩, by decide⟩,
      (Source.plain_text h.2).madeOf _⟩
  | call call =>
    refine ⟨_, ?_, String.append_empty.symm⟩
    rcases h with hcall | hnew
    · exact (Source.madeOf_call hcall).mono (by decide)
    · exact Source.madeOf_constructor hnew
  | nop | goto | ret => exact ⟨_, by decide, String.append_empty.symm⟩

end

private theorem Bound.madeOf_text (b : Bound) : Source.MadeOf Source.stateMarks b.text := by
  cases b with
  | finite n => exact (Source.plain_toString n).madeOf _
  | negInf | posInf => exact Source.madeOf_of_subset (by decide)

private theorem Interval.madeOf_text (i : Interval) : Source.MadeOf Source.stateMarks i.text := by
  unfold Interval.text
  split
  · exact Source.madeOf_of_subset (by decide)
  · simp only [Source.madeOf_append]
    exact ⟨⟨⟨⟨by decide, i.low.madeOf_text⟩, by decide⟩, i.high.madeOf_text⟩, by decide⟩

/-- A state over names is written with names, numbers and marks. -/
theorem Box.madeOf_text {scope : Scope} (hscope : ∀ x ∈ scope.names, Source.Plain x) (b : Box) :
    Source.MadeOf Source.stateMarks (b.text scope) := by
  cases b with
  | bottom => exact Source.madeOf_of_subset (by decide : "⊥".toList ⊆ Source.stateMarks)
  | reachable cs =>
    simp only [Box.text, Source.madeOf_append]
    -- a character between the braces is glue or part of a variable with its interval
    refine ⟨⟨by decide, fun c hc => ?_⟩, by decide⟩
    rcases Text.mem_intercalate hc with hglue | ⟨part, hpart, hc⟩
    · exact (by decide : Source.MadeOf Source.stateMarks ", ") c hglue
    · obtain ⟨⟨x, i⟩, hshown, rfl⟩ := List.mem_map.mp hpart
      have hx := hscope x (List.of_mem_zip (List.mem_filter.mp hshown).1).1
      have hpart : Source.MadeOf Source.stateMarks (x ++ " ∈ " ++ i.text) := by
        simp only [Source.madeOf_append]
        exact ⟨⟨hx.madeOf _, Source.madeOf_of_subset (by decide)⟩, i.madeOf_text⟩
      exact hpart c hc

/-- The variables of an accepted text have plain names. -/
theorem Source.plain_of_mem_scopeOf {text : String} {c : Class} {p : Procedure}
    (hparse : Class.parse text = .ok c) (hp : p ∈ c.procedures) :
    ∀ x ∈ (c.scopeOf p).names, Plain x := by
  obtain ⟨rest, hlocals, -, hrest⟩ := ((declarable_of_parse hparse).procedures p hp).2
  intro x hx
  rw [Class.scopeOf, Scope.mem_names_ofNames, List.mem_append] at hx
  apply plain_of_isIdentifier
  -- a local of the procedure, among them `this`, or a field of the class
  rcases hx with hx | hx
  · obtain ⟨v, hv, rfl⟩ := List.mem_map.mp hx
    have hv := (List.mem_filter.mp hv).1
    rw [hlocals, List.mem_cons] at hv
    rcases hv with rfl | hv
    · exact (by decide : isIdentifier "this" = true)
    · exact (hrest v hv).1
  · obtain ⟨v, hv, rfl⟩ := List.mem_map.mp hx
    exact ((declarable_of_parse hparse).fields v (List.mem_filter.mp hv).1).1

/-! ## §5 The lines of nodes -/

namespace Domain

variable {σ : Type} (d : Domain σ) (style : DrawingStyle) (n : Node) (i : Instruction)

open Drawing

/-- Before the instruction there is only the number of the node, and a state has a line break before
it that ends with a letter. -/
theorem quotedString?_labelText {s : σ} (hstate : Bare (d.render s).toList) (after : String) :
    quotedString? (escapeQuotes (d.labelText style n i s) ++ "\"" ++ after).toList =
        some ((escapeQuotes (d.labelText style n i s)).toList, after.toList) ↔
      EvenBeforeQuotes i.text.toList ∧
        (style.showStates = false → 2 ∣ trailingBackslashes i.text.toList) := by
  have hnode : Bare (n.text ++ ": ").toList := by
    have hplain : Source.Plain (toString n) := Source.plain_toString (Int.ofNat n)
    have hmade : Source.MadeOf [':', ' '] (n.text ++ ": ") := by
      simp only [Node.text, Source.madeOf_append]
      exact ⟨⟨by decide, hplain.madeOf _⟩, by decide⟩
    exact bare_of_madeOf hmade ⟨by decide, by decide⟩
  rw [quotedString?_escapeQuotes]
  cases hshow : style.showStates with
  | false =>
    have htext : (d.labelText style n i s).toList = (n.text ++ ": ").toList ++ i.text.toList := by
      simp [labelText, hshow]
    rw [htext, evenBeforeQuotes_append hnode, trailingBackslashes_append hnode.2]
    simp
  | true =>
    have htext : (d.labelText style n i s).toList =
        (n.text ++ ": ").toList ++ (i.text.toList ++ ('\\' :: 'n' :: (d.render s).toList)) := by
      simp [labelText, hshow, escapeQuotes_of_bare hstate]
    -- the backslash of the line break has a letter after it, so it never stands at the end
    have hquote : '"' ∉ '\\' :: 'n' :: (d.render s).toList := by simp [hstate.1]
    have hend : trailingBackslashes
        (i.text.toList ++ ('\\' :: 'n' :: (d.render s).toList)) = 0 := by
      have hletter : '\\' ∉ 'n' :: (d.render s).toList := by simp [hstate.2]
      have hzero := trailingBackslashes_append_right hletter (List.cons_ne_nil _ _)
        (i.text.toList ++ ['\\'])
      rwa [List.append_assoc, List.singleton_append] at hzero
    rw [htext, evenBeforeQuotes_append hnode, evenBeforeQuotes_append_right hquote,
      trailingBackslashes_append hnode.2, hend]
    simp

/-- The label is the first attribute of a node. -/
theorem exists_nodeLine_eq (headers : List LoopHeader) (a : Analysis σ) :
    ∃ after, d.nodeLine style headers a n i =
      toString n ++ " [label=\"" ++ escapeQuotes (d.labelText style n i (a.at d n)) ++ "\"" ++
        after := by
  obtain ⟨attributes, hline⟩ : ∃ attributes, d.nodeLine style headers a n i =
      toString n ++ " [" ++ ", ".intercalate
        (("label=\"" ++ escapeQuotes (d.labelText style n i (a.at d n)) ++ "\"") :: attributes) ++
          "];\n" :=
    ⟨_, rfl⟩
  -- the other attributes follow, each after a comma
  refine ⟨String.join (attributes.map (", " ++ ·)) ++ "];\n", ?_⟩
  rw [hline, Text.intercalate_cons, ← String.toList_inj]
  simp

/-- Every node has its line in the drawing. -/
private theorem exists_draw_eq {p : Procedure} {k : Node} {i : Instruction}
    (hi : p.graph.nodes[k]? = some i) (a : Analysis σ) :
    ∃ before after, d.draw style p a = before ++ d.nodeLine style p.graph.loopHeaders a k i ++
      after := by
  obtain ⟨earlier, later, hnodes⟩ := List.append_of_mem (List.mk_mem_zipIdx_iff_getElem?.mpr hi)
  obtain ⟨start, edges, hdraw⟩ : ∃ start edges, d.draw style p a = start ++
      String.join (p.graph.nodes.zipIdx.map fun q =>
        d.nodeLine style p.graph.loopHeaders a q.2 q.1) ++
      edges ++ "\x7d\n" :=
    ⟨_, _, rfl⟩
  refine ⟨start ++ String.join
    (earlier.map fun q => d.nodeLine style p.graph.loopHeaders a q.2 q.1),
    String.join (later.map fun q => d.nodeLine style p.graph.loopHeaders a q.2 q.1) ++ edges ++
      "\x7d\n", ?_⟩
  rw [hdraw, hnodes, ← String.toList_inj]
  simp

end Domain

open Drawing in
/-- The line of a node in the drawing of an accepted text, whatever states are drawn: the label
starts behind the first quote, and it ends at the quote behind its text if and only if the text that
the instruction keeps has even numbers of backslashes before its quotes and, if no state follows it,
at its end. -/
theorem Class.label_closes_iff {text : String} {c : Class} {p : Procedure} {k : Node}
    {i : Instruction} (hparse : Class.parse text = .ok c) (hp : p ∈ c.procedures)
    (hi : p.graph.nodes[k]? = some i) (style : DrawingStyle) (a : Analysis Box) :
    let d := c.domainOf p
    let line := d.nodeLine style p.graph.loopHeaders a k i
    let label := escapeQuotes (d.labelText style k i (a.at d k))
    (∃ before after, d.draw style p a = before ++ line ++ after) ∧
    ∃ after, line = toString k ++ " [label=\"" ++ label ++ "\"" ++ after ∧
      (quotedString? (label ++ "\"" ++ after).toList = some (label.toList, after.toList) ↔
        EvenBeforeQuotes i.keptText.toList ∧
          (style.showStates = false → 2 ∣ trailingBackslashes i.keptText.toList)) := by
  intro d line label
  -- only what the instruction keeps can bring quotes and backslashes into the label
  obtain ⟨head, hhead, htext⟩ := Instruction.exists_text_eq
    (Source.spelled_of_parse hparse hp (List.mem_of_getElem? hi))
  have hhead : Bare head.toList := bare_of_madeOf hhead ⟨by decide, by decide⟩
  have hstate : Bare (d.render (a.at d k)).toList :=
    bare_of_madeOf (Box.madeOf_text (Source.plain_of_mem_scopeOf hparse hp) _)
      ⟨by decide, by decide⟩
  obtain ⟨after, hline⟩ := d.exists_nodeLine_eq style k i p.graph.loopHeaders a
  refine ⟨d.exists_draw_eq style hi a, after, hline, ?_⟩
  rw [d.quotedString?_labelText style k i hstate, htext, String.toList_append,
    evenBeforeQuotes_append hhead, trailingBackslashes_append hhead.2]

/-- A procedure that assigns a read of `a` to `x`. -/
def looking (read : String) : Procedure where
  name := "look"
  params := []
  locals := [⟨"this", .object "Shelf"⟩, ⟨"a", .object "Shelf"⟩, ⟨"x", .int⟩]
  graph := {
    nodes := [.assign (.var ⟨"x", .int⟩) (.unmodeled read)]
    edges := []
    nonempty := List.cons_ne_nil _ _
    closed := List.forall_mem_nil _ }

/-- A class with this procedure. -/
def shelf (read : String) : Class := ⟨"Shelf", [], [looking read]⟩

/-- The text of the class. -/
def shelfText (read : String) : String :=
  "class Shelf\nmethod look\nlocal Shelf a\nlocal int x\nx = " ++ read ++ "\nend\n"

private theorem loopHeaders_looking (read : String) : (looking read).graph.loopHeaders = [] := by
  simp [looking]

/-- A read of a field whose name has two backslashes before its quote and two at its end. -/
def pairedRead : String := "a.\\\\\"f\\\\"

/-- Two backslashes are a pair, so the quote after them is safe. -/
theorem Class.label_closes_iff_pairedBackslashes :
    Class.parse (shelfText pairedRead) = .ok (shelf pairedRead) ∧
    ∃ after, ((shelf pairedRead).domainOf (looking pairedRead)).nodeLine { showStates := false }
        (looking pairedRead).graph.loopHeaders
        ((shelf pairedRead).analyze {} (looking pairedRead)) 0
        (.assign (.var ⟨"x", .int⟩) (.unmodeled pairedRead)) =
      "0 [label=\"" ++ "n0: x = a.\\\\\\\"f\\\\" ++ "\"" ++ after ∧
    Drawing.quotedString? ("n0: x = a.\\\\\\\"f\\\\" ++ "\"" ++ after).toList =
      some ("n0: x = a.\\\\\\\"f\\\\".toList, after.toList) := by
  have hparse : Class.parse (shelfText pairedRead) = .ok (shelf pairedRead) :=
    Source.eq_ok_of_toOption (by decide +kernel)
  refine ⟨hparse, ?_⟩
  obtain ⟨-, after, hline, hread⟩ := Class.label_closes_iff hparse (List.mem_singleton_self _)
    (k := 0) rfl { showStates := false } ((shelf pairedRead).analyze {} (looking pairedRead))
  exact ⟨after, hline, hread.mpr ⟨by decide, fun _ => by decide⟩⟩

/-- A read of a field whose name has one backslash before its quote. -/
def strayRead : String := "a.\\\""

/-- A backslash before a quote takes the new backslash as its partner, and the label ends at the
quote. -/
theorem Class.label_ends_early :
    Class.parse (shelfText strayRead) = .ok (shelf strayRead) ∧
    ((shelf strayRead).domainOf (looking strayRead)).draw {} (looking strayRead)
        ((shelf strayRead).analyze {} (looking strayRead)) =
      "digraph \"look\" \x7b\nnode [shape=box, fontname=monospace];\n" ++
        "0 [label=\"" ++ "n0: x = a.\\\\\"\\n\x7b\x7d" ++ "\"];\n\x7d\n" ∧
    Drawing.quotedString? ("n0: x = a.\\\\\"\\n\x7b\x7d" ++ "\"];\n\x7d\n").toList =
      some ("n0: x = a.\\\\".toList, "\\n\x7b\x7d\"];\n\x7d\n".toList) := by
  refine ⟨Source.eq_ok_of_toOption (by decide +kernel), ?_, by decide +kernel⟩
  unfold Class.analyze Domain.analyze Iteration.of Domain.draw
  rw [loopHeaders_looking]
  decide +kernel

end RangeGuard
