import RangeGuard.Text.Numeral
import RangeGuard.Text.Split

/-!
# Cutting what was put together

Text that is put together from parts is cut into the same parts again, as long as no part holds the
character at which it is cut. For words and trimming that character is white space; a numeral is put
together from digits, and its value is the number that was written.

The functions work on lists of characters, and so do the inductions. The lemmas that other modules
use are about strings, with a hypothesis on the characters of the string where one is needed. Each
way of cutting has a lemma in each direction: what happens to a text that was put together, and what
the parts of any text are like.

- §1 one cut, at the first occurrence of a character or after a given beginning
- §2 cuts at every occurrence: arguments and lines
- §3 words, which are cut at white space and never empty
- §4 white space around a text
- §5 numerals
-/

namespace RangeGuard

namespace Text

variable {s t a b : String} {sep c : Char} {as bs cs : List Char} {p : Char → Bool}

/-! ## §1 Cutting once -/

private theorem cutAt_append (h : sep ∉ as) : cutAt sep (as ++ sep :: bs) = some (as, bs) := by
  induction as with
  | nil => simp [cutAt]
  | cons x as ih =>
    rw [List.mem_cons, not_or] at h
    simp [cutAt, Ne.symm h.1, ih h.2]

private theorem cutAt_eq_none (h : sep ∉ cs) : cutAt sep cs = none := by
  induction cs with
  | nil => rfl
  | cons x cs ih =>
    rw [List.mem_cons, not_or] at h
    simp [cutAt, Ne.symm h.1, ih h.2]

/-- The cut is at the first separator. -/
theorem splitOnce_eq_some (hs : s.toList = a.toList ++ sep :: b.toList) (h : sep ∉ a.toList) :
    splitOnce sep s = some (a, b) := by
  simp [splitOnce, hs, cutAt_append h]

theorem splitOnce_eq_none (h : sep ∉ s.toList) : splitOnce sep s = none := by
  simp [splitOnce, cutAt_eq_none h]

theorem not_mem_of_splitOnce_eq_none (h : splitOnce sep s = none) : sep ∉ s.toList := by
  have hcut : ∀ cs, cutAt sep cs = none → sep ∉ cs := by
    intro cs
    induction cs with
    | nil => simp
    | cons x cs ih =>
      intro hnone
      unfold cutAt at hnone
      split at hnone
      · cases hnone
      · rename_i hx
        simp [Ne.symm hx, ih (Option.map_eq_none_iff.mp hnone)]
  exact hcut _ (Option.map_eq_none_iff.mp h)

/-- The parts together with the character are the whole text, and it is the first such character. -/
theorem toList_of_splitOnce (h : splitOnce sep s = some (a, b)) :
    s.toList = a.toList ++ sep :: b.toList ∧ sep ∉ a.toList := by
  have hcut : ∀ cs parts, cutAt sep cs = some parts → cs = parts.1 ++ sep :: parts.2 ∧
      sep ∉ parts.1 := by
    intro cs
    induction cs with
    | nil => simp [cutAt]
    | cons x cs ih =>
      intro parts hparts
      unfold cutAt at hparts
      split at hparts
      · obtain rfl := Option.some.inj hparts
        simp_all
      · rename_i hx
        obtain ⟨rest, hrest, rfl⟩ := Option.map_eq_some_iff.mp hparts
        obtain ⟨hcs, hnot⟩ := ih rest hrest
        simp [hcs, hnot, Ne.symm hx]
  obtain ⟨parts, hparts, h⟩ := Option.map_eq_some_iff.mp h
  obtain ⟨rfl, rfl⟩ := Prod.mk.inj h
  simpa using hcut s.toList parts hparts

/-- The last character of a text is dropped. -/
theorem dropSuffix?_eq_some (hs : s.toList = a.toList ++ [c]) : dropSuffix? s c = some a := by
  simp [dropSuffix?, endsWith, hs]

theorem dropSuffix?_eq_none (h : c ∉ s.toList) : dropSuffix? s c = none := by
  have hlast : s.toList.getLast? ≠ some c := fun hc => h (List.mem_of_getLast? hc)
  simp [dropSuffix?, endsWith, hlast]

theorem endsWith_eq_false (h : c ∉ s.toList) : endsWith s c = false := by
  have hlast : s.toList.getLast? ≠ some c := fun hc => h (List.mem_of_getLast? hc)
  simp [endsWith, hlast]

/-- A text ends as its last part does, unless that is empty. -/
theorem endsWith_append (a : String) (hb : b ≠ "") (c : Char) :
    endsWith (a ++ b) c = endsWith b c := by
  have hne : b.toList ≠ [] := mt String.toList_eq_nil_iff.mp hb
  simp [endsWith, List.getLast?_append, List.getLast?_eq_some_getLast hne]

/-- The given beginning and what comes after it are the whole text. -/
theorem toList_of_after? (h : after? a s = some b) : s.toList = a.toList ++ b.toList := by
  have hdrop : ∀ as cs rest, dropStart? as cs = some rest → cs = as ++ rest := by
    intro as cs
    fun_induction dropStart? as cs with
    | case1 cs => simp
    | case2 => simp
    | case3 x as cs ih =>
      intro rest hrest
      simp [ih rest hrest]
    | case4 => simp
  obtain ⟨rest, hrest, rfl⟩ := Option.map_eq_some_iff.mp h
  simpa using hdrop _ _ rest hrest

/-- What comes after a given beginning. -/
theorem after?_append (a b : String) : after? a (a ++ b) = some b := by
  have hdrop : ∀ as cs : List Char, dropStart? as (as ++ cs) = some cs := by
    intro as cs
    induction as with
    | nil => cases cs <;> rfl
    | cons x as ih => simp [dropStart?, ih]
  simp [after?, hdrop]

/-! ## §2 Cutting everywhere -/

/-- Without a place to cut there is one piece. -/
theorem pieces_of_forall (h : ∀ c ∈ cs, p c = false) : pieces p cs = [cs] := by
  induction cs with
  | nil => rfl
  | cons x cs ih =>
    obtain ⟨hx, hcs⟩ := List.forall_mem_cons.mp h
    simp [pieces, hx, ih hcs]

/-- The first piece ends at the first place to cut. -/
private theorem pieces_append (h : ∀ c ∈ as, p c = false) (hc : p c = true) :
    pieces p (as ++ c :: bs) = as :: pieces p bs := by
  induction as with
  | nil => simp [pieces, hc]
  | cons x as ih =>
    obtain ⟨hx, has⟩ := List.forall_mem_cons.mp h
    simp [pieces, hx, ih has]

/-- There is always a piece, and for an empty text it is the empty one. -/
private theorem pieces_ne_nil (p : Char → Bool) (cs : List Char) : pieces p cs ≠ [] := by
  fun_induction pieces p cs <;> simp

/-- The characters of a piece fail the test and come from the text. -/
theorem of_mem_pieces : ∀ piece ∈ pieces p cs, (∀ c ∈ piece, p c = false) ∧ piece ⊆ cs := by
  fun_induction pieces p cs with
  | case1 => simp
  | case2 c cs hc ih =>
    rw [List.forall_mem_cons]
    refine ⟨by simp, fun piece hpiece => ?_⟩
    exact ⟨(ih piece hpiece).1, List.subset_cons_of_subset c (ih piece hpiece).2⟩
  | case3 c cs hc hnil ih => exact absurd hnil (pieces_ne_nil p cs)
  | case4 c cs hc first rest hpieces ih =>
    rw [hpieces, List.forall_mem_cons] at ih
    rw [List.forall_mem_cons]
    refine ⟨⟨?_, List.cons_subset_cons c ih.1.2⟩, fun piece hpiece => ?_⟩
    · rw [List.forall_mem_cons]
      exact ⟨by simpa using hc, ih.1.1⟩
    · exact ⟨(ih.2 piece hpiece).1, List.subset_cons_of_subset c (ih.2 piece hpiece).2⟩

/-- Every character stands in a piece or between two. -/
theorem mem_pieces_of_mem (h : c ∈ cs) : p c = true ∨ ∃ piece ∈ pieces p cs, c ∈ piece := by
  fun_induction pieces p cs with
  | case1 => cases h
  | case2 d cs hd ih =>
    rcases List.mem_cons.mp h with rfl | h
    · exact .inl hd
    · exact (ih h).imp id fun ⟨piece, hpiece, hc⟩ => ⟨piece, List.mem_cons_of_mem _ hpiece, hc⟩
  | case3 d cs hd hnil ih => exact absurd hnil (pieces_ne_nil p cs)
  | case4 d cs hd first rest hpieces ih =>
    rw [hpieces] at ih
    rcases List.mem_cons.mp h with rfl | h
    · exact .inr ⟨_, List.mem_cons_self, List.mem_cons_self⟩
    · rcases ih h with hp | ⟨piece, hpiece, hc⟩
      · exact .inl hp
      · rcases List.mem_cons.mp hpiece with rfl | hpiece
        · exact .inr ⟨_, List.mem_cons_self, List.mem_cons_of_mem _ hc⟩
        · exact .inr ⟨piece, List.mem_cons_of_mem _ hpiece, hc⟩

/-- Parts with a comma and a blank between them: all but the first one keep the blank. -/
theorem splitAll_intercalate {first : String} {rest : List String} (hsep : sep ≠ ' ')
    (h : ∀ s ∈ first :: rest, sep ∉ s.toList) (hglue : t.toList = [sep, ' ']) :
    splitAll sep (t.intercalate (first :: rest)) = first :: rest.map (" " ++ ·) := by
  -- on lists of characters, by induction on the parts, with the first one generalised
  have hpieces : ∀ (cs : List Char) (rest : List String), sep ∉ cs → (∀ s ∈ rest, sep ∉ s.toList) →
      pieces (· = sep) ([sep, ' '].intercalate (cs :: rest.map String.toList)) =
        cs :: rest.map fun s => ' ' :: s.toList := by
    intro cs rest
    induction rest generalizing cs with
    | nil =>
      intro hcs _
      simpa using pieces_of_forall fun c hc => by simpa using ne_of_mem_of_not_mem hc hcs
    | cons s rest ih =>
      intro hcs hrest
      obtain ⟨hs, hrest⟩ := List.forall_mem_cons.mp hrest
      -- the blank after the separator belongs to the next part
      have hnext : [sep, ' '].intercalate (cs :: (s :: rest).map String.toList) =
          cs ++ sep :: [sep, ' '].intercalate ((' ' :: s.toList) :: rest.map String.toList) := by
        cases rest <;> simp [List.intercalate_cons_cons]
      have hblank : sep ∉ ' ' :: s.toList := by simp [hsep, hs]
      rw [hnext, pieces_append (fun c hc => by simpa using ne_of_mem_of_not_mem hc hcs) (by simp),
        ih _ hblank hrest, List.map_cons]
  obtain ⟨hfirst, hrest⟩ := List.forall_mem_cons.mp h
  rw [splitAll, String.toList_intercalate, hglue, List.map_cons, hpieces _ _ hfirst hrest]
  simp

/-- Parts with something between them, seen from the first one. -/
theorem intercalate_cons (glue first : String) (rest : List String) :
    glue.intercalate (first :: rest) = first ++ String.join (rest.map (glue ++ ·)) := by
  induction rest generalizing first with
  | nil => simp
  | cons next rest ih =>
    rw [String.intercalate_cons_cons, ih, List.map_cons, String.join_cons, String.append_assoc,
      String.append_assoc]

/-- The characters between the parts and those of the parts. -/
theorem mem_intercalate {glue : String} {parts : List String}
    (h : c ∈ (glue.intercalate parts).toList) :
    c ∈ glue.toList ∨ ∃ s ∈ parts, c ∈ s.toList := by
  cases parts with
  | nil => simp at h
  | cons first rest =>
    rw [intercalate_cons, String.toList_append, List.mem_append] at h
    rcases h with h | h
    · exact .inr ⟨first, List.mem_cons_self, h⟩
    · obtain ⟨-, ⟨s, hs, rfl⟩, hc⟩ : ∃ t, (∃ s ∈ rest, glue ++ s = t) ∧ c ∈ t.toList := by
        simpa using h
      rw [String.toList_append, List.mem_append] at hc
      rcases hc with hc | hc
      · exact .inl hc
      · exact .inr ⟨s, List.mem_cons_of_mem _ hs, hc⟩

/-- Lines that end with a line break are cut at the line breaks. -/
theorem lines_join {ls : List String} (h : ∀ s ∈ ls, '\n' ∉ s.toList) :
    lines (String.join (ls.map (· ++ "\n"))) = ls := by
  -- after the last line break stands an empty piece, which `lines` drops
  have hall : splitAll '\n' (String.join (ls.map (· ++ "\n"))) = ls ++ [""] := by
    induction ls with
    | nil => rfl
    | cons s ls ih =>
      obtain ⟨hs, hls⟩ := List.forall_mem_cons.mp h
      have ih := ih hls
      simp only [splitAll] at ih ⊢
      have hcut : (String.join ((s :: ls).map (· ++ "\n"))).toList =
          s.toList ++ '\n' :: (String.join (ls.map (· ++ "\n"))).toList := by
        simp
      rw [hcut, pieces_append (fun c hc => by simpa using ne_of_mem_of_not_mem hc hs) (by simp),
        List.map_cons, ih]
      simp
  simp [lines, hall]

/-! ## §3 Words -/

/-- A text without white space that is not empty. -/
def IsWord (s : String) : Prop := s ≠ "" ∧ ∀ c ∈ s.toList, isBlank c = false

-- the quantifier is decided over the characters of the text, not over all characters
instance decidableIsWord (s : String) : Decidable (IsWord s) :=
  have := List.decidableBAll (fun c => isBlank c = false) s.toList
  inferInstanceAs (Decidable (s ≠ "" ∧ _))

private theorem IsWord.toList_ne_nil (h : IsWord s) : s.toList ≠ [] := by
  rw [ne_eq, String.toList_eq_nil_iff]
  exact h.1

/-- Words without white space between them are one word. -/
theorem IsWord.append (ha : IsWord a) (hb : IsWord b) : IsWord (a ++ b) := by
  refine ⟨fun h => ha.1 (String.append_eq_empty_iff.mp h).1, fun c hc => ?_⟩
  rw [String.toList_append, List.mem_append] at hc
  exact hc.elim (ha.2 c) (hb.2 c)

theorem words_of_isWord (h : IsWord s) : words s = [s] := by
  simp [words, pieces_of_forall h.2, h.1]

/-- The first of several words. -/
theorem words_append (ha : IsWord a) (b : String) : words (a ++ " " ++ b) = a :: words b := by
  have hcut : (a ++ " " ++ b).toList = a.toList ++ ' ' :: b.toList := by simp
  rw [words, hcut, pieces_append ha.2 (by decide)]
  simp [words, ha.1]

/-- Words with blanks between them. -/
theorem words_intercalate {ws : List String} (h : ∀ w ∈ ws, IsWord w) :
    words (" ".intercalate ws) = ws := by
  induction ws with
  | nil => rfl
  | cons w ws ih =>
    obtain ⟨hw, hws⟩ := List.forall_mem_cons.mp h
    cases ws with
    | nil => simpa using words_of_isWord hw
    | cons w' ws => rw [String.intercalate_cons_cons, words_append hw, ih hws]

/-- What follows a word without white space between them can only make the word longer. -/
theorem exists_words_append (ha : IsWord a) (b : String) :
    ∃ more rest, words (a ++ b) = (a ++ more) :: rest := by
  have hpieces : ∀ as bs : List Char, (∀ c ∈ as, isBlank c = false) →
      ∃ more rest, pieces isBlank (as ++ bs) = (as ++ more) :: rest := by
    intro as bs has
    induction as with
    | nil =>
      obtain ⟨first, rest, h⟩ := List.exists_cons_of_ne_nil (pieces_ne_nil isBlank bs)
      exact ⟨first, rest, h⟩
    | cons x as ih =>
      obtain ⟨hx, has⟩ := List.forall_mem_cons.mp has
      obtain ⟨more, rest, h⟩ := ih has
      exact ⟨more, rest, by simp [pieces, hx, h]⟩
  obtain ⟨more, rest, h⟩ := hpieces a.toList b.toList ha.2
  refine ⟨String.ofList more, (rest.filter fun piece => !piece.isEmpty).map String.ofList, ?_⟩
  rw [words, String.toList_append, h]
  simp [ha.1]

/-- The words of a text are words, of characters of the text. -/
theorem of_mem_words (h : a ∈ words s) : IsWord a ∧ a.toList ⊆ s.toList := by
  simp only [words, List.mem_map, List.mem_filter] at h
  obtain ⟨piece, ⟨hpiece, hne⟩, rfl⟩ := h
  obtain ⟨hblank, hsub⟩ := of_mem_pieces piece hpiece
  refine ⟨⟨?_, ?_⟩, ?_⟩
  · simpa using hne
  · simpa using hblank
  · simpa using hsub

/-- If a text does not end where it is cut, its last piece ends as the text does. -/
theorem getLast?_pieces (h : ∀ c ∈ cs.getLast?, p c = false) :
    (pieces p cs).getLast?.map List.getLast? = some cs.getLast? := by
  fun_induction pieces p cs with
  | case1 => simp
  | case2 c cs hc ih =>
    cases cs with
    | nil => simp [hc] at h
    | cons d cs =>
      obtain ⟨first, rest, hfirst⟩ := List.exists_cons_of_ne_nil (pieces_ne_nil p (d :: cs))
      simpa [hfirst] using ih (by simpa using h)
  | case3 c cs hc hnil => exact absurd hnil (pieces_ne_nil p cs)
  | case4 c cs hc first rest hfirst ih =>
    cases cs with
    | nil =>
      obtain ⟨rfl, rfl⟩ := List.cons.inj hfirst
      simp
    | cons d cs =>
      have ih := ih (by simpa using h)
      rw [hfirst] at ih
      -- the character is put before the first piece, which may be the last one too
      cases rest with
      | nil => simpa [List.getLast?_cons] using congrArg (·.map (·.getD c)) ih
      | cons piece rest => simpa using ih

/-- If a text does not end with white space, it ends as its only word does. -/
theorem endsWith_of_words (hs : ∀ c ∈ s.toList.getLast?, isBlank c = false) (h : words s = [a])
    (c : Char) :
    endsWith a c = endsWith s c := by
  obtain ⟨last, hlast, hends⟩ := Option.map_eq_some_iff.mp (getLast?_pieces hs)
  -- only the last piece can be the word, because it is not empty
  have hne : last ≠ [] := by
    rintro rfl
    have hnil : s.toList = [] := by simpa using hends.symm
    simp [words, hnil, pieces] at h
  have hmem : String.ofList last ∈ words s := by
    simp only [words, List.mem_map, List.mem_filter]
    exact ⟨last, ⟨List.mem_of_getLast? hlast, by simpa using hne⟩, rfl⟩
  rw [h, List.mem_singleton] at hmem
  simp [endsWith, ← hmem, hends]

/-! ## §4 White space around a text -/

/-- The first and the last character are not white space. -/
def Tight (s : String) : Prop :=
  (∃ c ∈ s.toList.head?, isBlank c = false) ∧ ∃ c ∈ s.toList.getLast?, isBlank c = false

theorem IsWord.tight (h : IsWord s) : Tight s := by
  refine ⟨⟨s.toList.head h.toList_ne_nil, ?_, ?_⟩, s.toList.getLast h.toList_ne_nil, ?_, ?_⟩
  · exact List.head?_eq_some_head h.toList_ne_nil
  · exact h.2 _ (List.head_mem _)
  · exact List.getLast?_eq_some_getLast h.toList_ne_nil
  · exact h.2 _ (List.getLast_mem _)

/-- White space in the middle does no harm. -/
theorem Tight.append (ha : Tight a) (hb : Tight b) (mid : String) : Tight (a ++ mid ++ b) := by
  obtain ⟨⟨first, hfirst, hblank⟩, -⟩ := ha
  obtain ⟨-, ⟨last, hlast, hblank'⟩⟩ := hb
  refine ⟨⟨first, ?_, hblank⟩, last, ?_, hblank'⟩
  · simp [Option.mem_def.mp hfirst]
  · simp [Option.mem_def.mp hlast]

theorem tight_intercalate {first : String} {rest : List String} (h : ∀ s ∈ first :: rest, Tight s)
    (glue : String) : Tight (glue.intercalate (first :: rest)) := by
  induction rest generalizing first with
  | nil => simpa using h
  | cons next rest ih =>
    obtain ⟨hfirst, hrest⟩ := List.forall_mem_cons.mp h
    rw [String.intercalate_cons_cons]
    exact hfirst.append (ih hrest) glue

theorem Tight.ne_empty (h : Tight s) : s ≠ "" := by
  rintro rfl
  obtain ⟨⟨c, hc, -⟩, -⟩ := h
  cases hc

/-- Dropping stops at the first character that fails the test. -/
private theorem dropWhile_append (h : ∀ c ∈ as, p c = true) (hb : ∀ c ∈ bs.head?, p c = false) :
    (as ++ bs).dropWhile p = bs := by
  rw [List.dropWhile_append_of_pos h]
  cases bs with
  | nil => rfl
  | cons c bs => simp [hb c rfl]

/-- Trimming drops the white space around a tight text. -/
theorem trim_eq (as bs : List Char) (ht : Tight t) (hs : s.toList = as ++ t.toList ++ bs)
    (has : ∀ c ∈ as, isBlank c = true) (hbs : ∀ c ∈ bs, isBlank c = true) : trim s = t := by
  obtain ⟨⟨first, hfirst, hblank⟩, last, hlast, hblank'⟩ := ht
  -- first from the left, where the text has a character that is not white space
  have hleft : s.toList.dropWhile isBlank = t.toList ++ bs := by
    rw [hs, List.append_assoc]
    apply dropWhile_append has
    simp [Option.mem_def.mp hfirst, hblank]
  have hright : (t.toList ++ bs).reverse.dropWhile isBlank = t.toList.reverse := by
    rw [List.reverse_append]
    apply dropWhile_append
    · simpa using hbs
    · simp [Option.mem_def.mp hlast, hblank']
  rw [trim, dropEndWhile, hleft, hright, List.reverse_reverse, String.ofList_toList]

theorem trim_eq_self (hs : Tight s) : trim s = s :=
  trim_eq [] [] hs (by simp) (by simp) (by simp)

theorem trim_blank_append (hs : Tight s) : trim (" " ++ s) = s :=
  trim_eq [' '] [] hs (by simp) (List.forall_mem_singleton.mpr rfl) (by simp)

theorem trim_append_blank (hs : Tight s) : trim (s ++ " ") = s :=
  trim_eq [] [' '] hs (by simp) (by simp) (List.forall_mem_singleton.mpr rfl)

/-- Trimming adds no characters. -/
theorem trim_subset (s : String) : (trim s).toList ⊆ s.toList := by
  intro c hc
  simp only [trim, dropEndWhile, String.toList_ofList, List.mem_reverse] at hc
  have hdrop := List.mem_reverse.mp ((List.dropWhile_sublist _).subset hc)
  exact (List.dropWhile_sublist _).subset hdrop

/-- A trimmed text does not end with white space. -/
theorem getLast?_trim (s : String) : ∀ c ∈ (trim s).toList.getLast?, isBlank c = false := by
  intro c hc
  simp only [trim, dropEndWhile, String.toList_ofList, List.getLast?_reverse] at hc
  have hfirst := List.head?_dropWhile_not isBlank (s.toList.dropWhile isBlank).reverse
  rw [Option.mem_def.mp hc] at hfirst
  exact hfirst

/-! ## §5 Numerals -/

/-- The digits of a number have its value. -/
private theorem natural?_toDigits (n : Nat) : natural? (Nat.toDigits 10 n) = some n := by
  have hdigits : (Nat.toDigits 10 n).all Char.isDigit = true :=
    List.all_eq_true.mpr fun c hc => Nat.isDigit_of_mem_toDigits (by decide) (by decide) hc
  have hvalue : (Nat.toDigits 10 n).foldl (fun n c => 10 * n + digitValue c) 0 = n := by
    have h := Nat.ofDigitChars_ten_toDigits (n := n)
    rwa [Nat.ofDigitChars_eq_foldl] at h
  simp [natural?, hdigits, hvalue]

/-- The digits of a written integer, with a minus sign before them if it is negative. -/
theorem toList_toString (n : Int) :
    (toString n).toList =
      if 0 ≤ n then Nat.toDigits 10 n.toNat else '-' :: Nat.toDigits 10 (-n).toNat := by
  rw [Int.toString_eq_repr, Int.repr_eq_if]
  split <;> simp [Nat.repr_eq_ofList_toDigits]

/-- A run of digits does not start with a sign. -/
theorem integer?_of_natural? {n : Nat} (h : natural? cs = some n) :
    integer? cs = some (n : Int) := by
  have hsign : ∀ c rest, c.isDigit = false → cs ≠ c :: rest := by
    rintro c rest hc rfl
    simp [natural?, hc] at h
  -- a sign is not a digit, so neither of the cases with a sign applies
  unfold integer?
  split
  · exact absurd rfl (hsign '-' _ (by decide))
  · exact absurd rfl (hsign '+' _ (by decide))
  · simp [h]

/-- A numeral is a run of digits, with a sign before it or without one. -/
theorem exists_of_integer? {n : Int} (h : integer? cs = some n) :
    ∃ digits m, natural? digits = some m ∧
      (cs = '-' :: digits ∧ n = -(m : Int) ∨ (cs = '+' :: digits ∨ cs = digits) ∧
        n = (m : Int)) := by
  unfold integer? at h
  simp only [Option.pure_def, Option.bind_eq_bind] at h
  split at h
  all_goals
    obtain ⟨_, hvalue, rfl⟩ := Option.map_eq_some_iff.mp h
    obtain ⟨m, hm, hvalue⟩ := Option.bind_eq_some_iff.mp hvalue
    obtain rfl := Option.some.inj hvalue
  · exact ⟨_, m, hm, .inl ⟨rfl, rfl⟩⟩
  · exact ⟨_, m, hm, .inr ⟨.inl rfl, rfl⟩⟩
  · exact ⟨_, m, hm, .inr ⟨.inr rfl, rfl⟩⟩

/-- A negative value has a minus sign before its digits. -/
theorem exists_of_integer?_neg {n : Int} (h : integer? cs = some n) (hn : n < 0) :
    ∃ digits m, cs = '-' :: digits ∧ natural? digits = some m ∧ n = -(m : Int) := by
  obtain ⟨digits, m, hm, ⟨hcs, hvalue⟩ | ⟨-, hvalue⟩⟩ := exists_of_integer? h
  · exact ⟨digits, m, hcs, hm, hvalue⟩
  · omega

/-- A run of digits is not empty and has digits only. -/
theorem isDigit_of_natural? {m : Nat} (h : natural? cs = some m) :
    cs ≠ [] ∧ ∀ c ∈ cs, c.isDigit = true := by
  unfold natural? at h
  split at h
  · cases h
  split at h
  · rename_i hne hall
    exact ⟨by simpa using hne, List.all_eq_true.mp hall⟩
  · cases h

/-- After a minus sign stands the numeral of the inverse. -/
theorem natural?_of_integer?_minus {n : Int} (h : integer? ('-' :: cs) = some n) :
    ∃ m, natural? cs = some m ∧ n = -(m : Int) := by
  obtain ⟨digits, m, hm, ⟨hcs, hvalue⟩ | ⟨hcs | rfl, -⟩⟩ := exists_of_integer? h
  · exact ⟨m, (List.cons.inj hcs).2 ▸ hm, hvalue⟩
  · cases hcs
  · exact absurd ((isDigit_of_natural? hm).2 '-' List.mem_cons_self) (by decide)

/-- The value of a written integer that fits the limits. -/
theorem literal?_toString {n : Int} (hmin : literalMin ≤ n) (hmax : n ≤ literalMax) :
    literal? (toString n) = some n := by
  have hinteger : integer? (toString n).toList = some n := by
    rw [toList_toString]
    -- the numeral of a negative number is a minus sign and the numeral of its inverse
    split
    · rw [integer?_of_natural? (natural?_toDigits _)]
      simp
      omega
    · simp only [integer?, natural?_toDigits]
      simp
      omega
  rw [literal?, hinteger]
  simp [hmin, hmax]

end Text

end RangeGuard
