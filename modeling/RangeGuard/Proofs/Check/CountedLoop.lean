import RangeGuard.Proofs.Analysis.Answers
import RangeGuard.Proofs.Analysis.CountedLoop
import RangeGuard.Proofs.Analysis.Renaming
import RangeGuard.Proofs.Check.Indexing
import RangeGuard.Proofs.Source.Listing

/-!
# Counted loops are proved safe

A procedure that creates a collection of `n` places and indexes it with every number below `n` is
proved safe, for every positive `n` and every widening threshold, as soon as the visit limit leaves
room for the merges up to the threshold. The class around the procedure, its other locals and the
names of the two locals play no part.

## The argument

1. The analysis over the counter alone is known. Further variables and another name for the counter
   change nothing but the scope, because the two iterations are in step (§1). The renaming is the
   constant function: it is injective on the one integer of the loop.
2. The check finds one access, on the one site that the receiver can refer to, and the range of its
   index is the set of valid indices there (§2).
3. The loop can be written. The text with the size as a numeral is followed line by line, and the
   lines without the size are read by computation (§3).
-/

namespace RangeGuard

/-! ## §1 Any scope with the counter -/

/-- Under another name for its counter the loop is the loop with that counter. -/
private theorem rename_countedLoop (array counter : String) (n : Int) :
    (countedLoop array "i" n).rename (fun _ => counter) = countedLoop array counter n := rfl

/-- The only integer of the loop is its counter. -/
theorem name_of_mem_locals_countedLoop {array counter : String} {n : Int} :
    ∀ v ∈ (countedLoop array counter n).locals, v.ty = .int → v.name = counter := by
  simp [FlowGraph.locals, countedLoop, Instruction.locals, Call.locals, Place.locals, Rhs.locals,
    Operand.locals]

/-- The counter may be any variable of the scope. -/
private theorem renaming_countedLoop (array : String) {counter : String} (n : Int) {scope : Scope}
    (hcounter : counter ∈ scope.names) :
    Renaming (fun _ => counter) counterScope scope (countedLoop array "i" n) where
  injective := by
    have hnames : ∀ {x}, (x ∈ counterScope.names ∨
        ∃ v ∈ (countedLoop array "i" n).locals, v.ty = .int ∧ v.name = x) → x = "i" := by
      rintro x (hx | ⟨v, hv, hint, rfl⟩)
      · exact List.mem_singleton.mp hx
      · exact name_of_mem_locals_countedLoop v hv hint
    exact fun x hx y hy _ => (hnames hx).trans (hnames hy).symm
  mem _ _ := hcounter
  additional y _ := by
    by_cases hy : y = counter
    · exact .inl ⟨"i", List.mem_singleton_self _, hy.symm⟩
    · right
      intro v hv hint heq
      rw [rename_countedLoop] at hv
      exact hy (heq.symm.trans (name_of_mem_locals_countedLoop v hv hint))

open Box in
/-- Over any scope that has the counter the analysis ends like the one over the counter alone. -/
theorem analyze_countedLoop_of_mem (array : String) {counter : String} {n : Int} (hn : 0 < n)
    {scope : Scope} (hcounter : counter ∈ scope.names) {settings : Settings}
    (hlimit : 4 * (settings.wideningThreshold - 2) + 13 ≤ settings.visitLimit) :
    ((domain scope).analyze settings (countedLoop array counter n)).converged = true ∧
    ∃ cs, ((domain scope).analyze settings (countedLoop array counter n)).at (domain scope) 3 =
        reachable cs ∧
      cs.length = scope.size ∧ lookup scope cs counter = ⟨.finite 0, .finite (n - 1)⟩ := by
  obtain ⟨hconverged, hcall⟩ := analyze_countedLoop array hn hlimit
  have hstep := inStep_rename (renaming_countedLoop array n hcounter) settings
  have hrun := hstep.iterate hstep.start settings.visitLimit
  have hcorresponds : Corresponds (fun _ => counter) counterScope scope
      (((domain counterScope).analyze settings (countedLoop array "i" n)).at
        (domain counterScope) 3)
      (((domain scope).analyze settings (countedLoop array counter n)).at (domain scope) 3) :=
    (hstep.before hrun 3).2
  -- both queues are empty at the end, and the box at the call has the counter's component
  refine ⟨(congrArg List.isEmpty hrun.queue).trans hconverged, ?_⟩
  rw [hcall, range] at hcorresponds
  generalize ((domain scope).analyze settings (countedLoop array counter n)).at (domain scope) 3 = s
    at hcorresponds ⊢
  cases hcorresponds with
  | reachable h => exact ⟨_, rfl, h.right_length, h.lookup_eq (List.mem_singleton_self "i")⟩

/-! ## §2 The check -/

/-- The access of the loop: its index is any number below the size, and that is safe. -/
def countedAccess (array : String) (n : Int) : AccessFinding :=
  ⟨3, ⟨array, .object "PrinterArray"⟩, ⟨.finite 0, .finite (n - 1)⟩, .safe⟩

/-- The local of the collection refers to the object that the first statement creates, and to no
other. -/
theorem oracle_countedLoop {p : Procedure} {array counter : String} {n : Int}
    (hgraph : p.graph = countedLoop array counter n)
    (hparams : ⟨array, .object "PrinterArray"⟩ ∉ p.params) :
    p.oracle {} ⟨array, .object "PrinterArray"⟩ = some [0] := by
  generalize hunresolved : (ValueFlow.ofParams {} p.params).unresolved = unresolved
  have hflow : ValueFlow.ofProcedure {} p = ⟨unresolved, [(array, 0)], []⟩ := by
    rw [ValueFlow.ofProcedure, hgraph, ← hunresolved]
    simp [countedLoop, ValueFlow.ofInstruction, ValueFlow.ofConstructor, ValueFlow.ofParams,
      ValueFlow.append, ValueFlow.empty, Collection.hasType, Ty.isClass, List.zipIdx]
  have hsolution : ValueFlow.solution ⟨unresolved, [(array, 0)], []⟩ =
      ⟨unresolved, [(0, [array])]⟩ := by
    -- there is no copy to follow
    rw [ValueFlow.solution, Holdings.solve]
    exact dif_pos rfl
  -- a parameter of the same name would need the same type
  have hresolved : array ∉ unresolved := by
    rw [← hunresolved]
    intro hmem
    obtain ⟨v, hv, hname⟩ := List.mem_map.mp hmem
    obtain ⟨hparam, htype⟩ := List.mem_filter.mp hv
    have hty : v.ty = .object "PrinterArray" := of_decide_eq_true htype
    apply hparams
    rw [← hname, ← hty]
    exact hparam
  show (ValueFlow.ofProcedure {} p).targets array = _
  rw [hflow, ValueFlow.targets, hsolution]
  simp [hresolved]

/-- The one finding of the check, if the index has the range that the analysis gives it. -/
private theorem checkAccesses_countedLoop {d : Domain Box} {a : Analysis Box} {oracle : Oracle}
    {array counter : String} {n : Int} (hn : 0 < n) (hreached : d.isBottom (a.at d 3) = false)
    (horacle : oracle ⟨array, .object "PrinterArray"⟩ = some [0])
    (hindex : d.operandRange (a.at d 3) (.var ⟨counter, .int⟩) = ⟨.finite 0, .finite (n - 1)⟩) :
    d.checkAccesses a ((countedLoop array counter n).allocationSites {}) oracle {}
      (countedLoop array counter n) = [countedAccess array n] := by
  have hsafe : accessOutcome ((countedLoop array counter n).allocationSites {}) oracle
      ⟨.finite 0, .finite (n - 1)⟩ ⟨array, .object "PrinterArray"⟩ = .safe := by
    rw [accessOutcome, horacle]
    apply siteOutcome_eq_safe_iff.mpr
    intro site hsite
    obtain rfl := List.mem_singleton.mp hsite
    refine ⟨.between (.finite 0) (.finite (n - 1)), rfl, ?_⟩
    rw [Interval.between, if_neg (by simp; omega)]
    simp [Interval.within, Interval.inclusion]
  have hcall : d.accessAt? a ((countedLoop array counter n).allocationSites {}) oracle {} 3
      (.call ⟨.virtual, some ⟨array, .object "PrinterArray"⟩, none, "sendJob",
        [.var ⟨counter, .int⟩]⟩) =
        some (countedAccess array n) := by
    show (if d.isBottom (a.at d 3) then none else some _) = _
    rw [hreached, hindex, hsafe]
    rfl
  -- no other node is an access
  show List.filterMap _ [(_, 0), (_, 1), (_, 2), (_, 3), (_, 4), (_, 5), (_, 6)] = _
  rw [List.filterMap_cons_none rfl, List.filterMap_cons_none rfl, List.filterMap_cons_none rfl,
    List.filterMap_cons, hcall]
  rfl

/-- The verdict on a procedure whose body is the loop. -/
theorem verdictOn_countedLoop (c : Class) {p : Procedure} {array counter : String} {n : Int}
    (hn : 0 < n) (hgraph : p.graph = countedLoop array counter n)
    (hcounter : ⟨counter, .int⟩ ∈ p.locals)
    (hparams : ⟨array, .object "PrinterArray"⟩ ∉ p.params) {settings : Settings}
    (hcollection : settings.collection = {})
    (hlimit : 4 * (settings.wideningThreshold - 2) + 13 ≤ settings.visitLimit) :
    (c.verdictOn settings p).converged = true ∧ (c.verdictOn settings p).failureCount = 0 ∧
    (c.verdictOn settings p).boundsSafe = true ∧
    (c.verdictOn settings p).accesses = [countedAccess array n] := by
  have hscope : counter ∈ (c.scopeOf p).names := by
    apply Scope.mem_names_ofNames.mpr
    apply List.mem_append_left
    exact List.mem_map.mpr ⟨_, List.mem_filter.mpr ⟨hcounter, rfl⟩, rfl⟩
  obtain ⟨hconverged, cs, hcall, hlength, hlookup⟩ :=
    analyze_countedLoop_of_mem array hn hscope hlimit
  rw [← hgraph] at hconverged hcall
  have hconverged : (c.analyze settings p).converged = true := hconverged
  have hcall : (c.analyze settings p).at (c.domainOf p) 3 = .reachable cs := hcall
  have hfailures : (c.analyze settings p).failures = [] := Box.failures_analyze _ settings p.graph
  -- the index is the counter, and its range is its component of the box
  have hindex : (c.domainOf p).operandRange ((c.analyze settings p).at (c.domainOf p) 3)
      (.var ⟨counter, .int⟩) = ⟨.finite 0, .finite (n - 1)⟩ := by
    have htracks : (c.domainOf p).tracks ⟨counter, .int⟩ = true :=
      Domain.tracks_iff.mpr ⟨rfl, hscope⟩
    have hbound : (c.domainOf p).bound (.reachable cs) (.var counter) =
        .ok (Arith.range (Box.lookup (c.scopeOf p) cs) (.var counter)) :=
      Box.bound_reachable hlength (Arith.within_var hscope)
    simp only [Domain.operandRange, htracks, hcall, if_true, hbound, Arith.range, hlookup]
  have haccesses : (c.verdictOn settings p).accesses = [countedAccess array n] := by
    show (c.domainOf p).checkAccesses (c.analyze settings p)
      (p.graph.allocationSites settings.collection)
        (p.oracle settings.collection) settings.collection
      p.graph = _
    rw [hcollection, hgraph]
    apply checkAccesses_countedLoop hn _ (oracle_countedLoop hgraph hparams) hindex
    rw [hcall]
    rfl
  refine ⟨hconverged, congrArg List.length hfailures, ?_, haccesses⟩
  show ((c.analyze settings p).isTrusted settings && (c.verdictOn settings p).accesses.all _) = true
  rw [haccesses]
  simp [Analysis.isTrusted, hconverged, hfailures, countedAccess]

/-! ## §3 The loop as a text -/

/-- The lines of a class whose only method is the loop. -/
def countedLoopLines (n : Int) : List String :=
  ["class Counted", "method run", "local PrinterArray p", "local int i",
    "p = new PrinterArray(" ++ toString n ++ ")",
    "i = 0",
    "head:",
    "if i >= " ++ toString n ++ " goto done",
    "p.sendJob(i)",
    "i = i + 1",
    "goto head",
    "done:",
    "return",
    "end"]

/-- The text of a class whose only method is the loop. -/
def countedLoopText (n : Int) : String := String.join ((countedLoopLines n).map (· ++ "\n"))

/-- The locals of the method. -/
def countedLocals : List Local :=
  [⟨"this", .object "Counted"⟩, ⟨"p", .object "PrinterArray"⟩, ⟨"i", .int⟩]

/-- The class of the text. -/
def countedClass (n : Int) : Class :=
  ⟨"Counted", [], [⟨"run", [], countedLocals, countedLoop "p" "i" n⟩]⟩

namespace Source

section Lines

variable {n : Int} {size s : String} {c : Class} {m : MethodDraft} {line : Nat}

/-! ### Statements with the size -/

private theorem isWord_newArray (hsize : Plain size) :
    Text.IsWord ("PrinterArray(" ++ size ++ ")") := by
  have hmade : MadeOf ['(', ')'] ("PrinterArray(" ++ size ++ ")") := by
    simp only [madeOf_append]
    exact ⟨⟨by decide, hsize.madeOf _⟩, by decide⟩
  exact hmade.isWord (by simp) (by decide)

/-- The argument of the constructor call is the size. -/
private theorem splitCall_newArray (size : String) :
    splitCall ("PrinterArray(" ++ size ++ ")") = .ok ("PrinterArray", size) := by
  have hclosed : Text.dropSuffix? ("PrinterArray(" ++ size ++ ")") ')' =
      some ("PrinterArray(" ++ size) :=
    Text.dropSuffix?_eq_some (by simp)
  have hopened : Text.splitOnce '(' ("PrinterArray(" ++ size) = some ("PrinterArray", size) :=
    Text.splitOnce_eq_some (by simp) (by decide)
  rw [splitCall, hclosed, Option.bind_some, hopened]
  rfl

/-- A word without commas is the only argument. -/
private theorem arguments_single {locals : List Local} {o : Operand} (hs : Plain s)
    (hoperand : operand locals s = .ok o) : arguments locals s = .ok [o] := by
  have htrim : Text.trim s = s := Text.trim_eq_self hs.isWord.tight
  have hpieces : Text.pieces (· = ',') s.toList = [s.toList] := by
    apply Text.pieces_of_forall
    intro c hc
    simpa using ne_of_mem_of_not_mem hc (hs.not_mem (by decide))
  have hsplit : Text.splitAll ',' s = [s] := by simp [Text.splitAll, hpieces]
  simp [arguments, htrim, hs.1, hsplit, hoperand, bind, Except.bind, pure, Except.pure]

private theorem words_newArray (hsize : Plain size) :
    Text.words ("p = new PrinterArray(" ++ size ++ ")") =
      ["p", "=", "new", "PrinterArray(" ++ size ++ ")"] := by
  have htext : "p = new PrinterArray(" ++ size ++ ")" =
      "p" ++ " " ++ ("=" ++ " " ++ ("new" ++ " " ++ ("PrinterArray(" ++ size ++ ")"))) := by
    rw [← String.toList_inj]
    simp
  rw [htext, Text.words_append (by decide), Text.words_append (by decide),
    Text.words_append (by decide), Text.words_of_isWord (isWord_newArray hsize)]

/-- The statement that creates the collection. -/
theorem statement_newArray (hsize : Plain size)
    (hoperand : operand countedLocals size = .ok (.const n)) :
    statement countedLocals ("p = new PrinterArray(" ++ size ++ ")") =
      .ok (.call ⟨.constructor, some ⟨"p", .object "PrinterArray"⟩, some "PrinterArray", "<init>",
        [.const n]⟩, none) := by
  have hnew : Text.IsWord "new" := by decide
  have hword := isWord_newArray hsize
  -- the right side starts with `new`, so it is a constructor call
  have hassignment : assignment countedLocals "p" ("new " ++ ("PrinterArray(" ++ size ++ ")")) =
      .ok (.call ⟨.constructor, some ⟨"p", .object "PrinterArray"⟩, some "PrinterArray", "<init>",
        [.const n]⟩) := by
    have hplace : place countedLocals "p" = .ok (.var ⟨"p", .object "PrinterArray"⟩) := rfl
    have htype : typeName "PrinterArray" = .ok "PrinterArray" := rfl
    simp [assignment, hplace, Text.after?_append, Text.trim_eq_self hword.tight, splitCall_newArray,
      htype, arguments_single hsize hoperand, initializer, bind, Except.bind, pure, Except.pure]
  have hsplit : Text.splitOnce '=' ("p = new PrinterArray(" ++ size ++ ")") =
      some ("p ", " " ++ ("new " ++ ("PrinterArray(" ++ size ++ ")"))) :=
    Text.splitOnce_eq_some (by simp) (by decide)
  have hleft : Text.trim "p " = "p" := rfl
  have hright : Text.trim (" " ++ ("new " ++ ("PrinterArray(" ++ size ++ ")"))) =
      "new " ++ ("PrinterArray(" ++ size ++ ")") :=
    Text.trim_blank_append (hnew.tight.append hword.tight " ")
  simp [statement, words_newArray hsize, hsplit, hleft, hright, hassignment, bind,
    Except.bind, pure, Except.pure]

private theorem words_loopTest (hsize : Plain size) :
    Text.words ("if i >= " ++ size ++ " goto done") = ["if", "i", ">=", size, "goto", "done"] := by
  have htext : "if i >= " ++ size ++ " goto done" =
      "if" ++ " " ++ ("i" ++ " " ++
        (">=" ++ " " ++ (size ++ " " ++ ("goto" ++ " " ++ "done")))) := by
    rw [← String.toList_inj]
    simp
  rw [htext, Text.words_append (by decide), Text.words_append (by decide),
    Text.words_append (by decide), Text.words_append hsize.isWord]
  rfl

/-- The test of the loop. -/
theorem statement_loopTest (hsize : Plain size)
    (hoperand : operand countedLocals size = .ok (.const n)) :
    statement countedLocals ("if i >= " ++ size ++ " goto done") =
      .ok (.branch .ge (.var ⟨"i", .int⟩) (.const n), some "done") := by
  have hcounter : operand countedLocals "i" = .ok (.var ⟨"i", .int⟩) := rfl
  simp [statement, words_loopTest hsize, Comparator.ofSymbol?, hcounter, hoperand, bind,
    Except.bind, pure, Except.pure]

private theorem isLine_newArray (hsize : Plain size) :
    IsLine ("p = new PrinterArray(" ++ size ++ ")") := by
  have hp : IsLine "p" := isLine_of_isWord (by decide) (by decide)
  have hword := isWord_newArray hsize
  have hcomment : '#' ∉ ("PrinterArray(" ++ size ++ ")").toList := by
    simpa using hsize.not_mem (c := '#') (by decide)
  have htext : "p = new PrinterArray(" ++ size ++ ")" =
      "p" ++ " = new " ++ ("PrinterArray(" ++ size ++ ")") := by
    rw [← String.toList_inj]
    simp
  rw [htext]
  exact hp.append (isLine_of_isWord hword hcomment) (by decide)

private theorem isLine_loopTest (hsize : Plain size) :
    IsLine ("if i >= " ++ size ++ " goto done") := by
  have hif : IsLine "if" := isLine_of_isWord (by decide) (by decide)
  have hdone : IsLine "done" := isLine_of_isWord (by decide) (by decide)
  have htext : "if i >= " ++ size ++ " goto done" = "if" ++ " i >= " ++ size ++ " goto " ++
      "done" := by
    rw [← String.toList_inj]
    simp
  rw [htext]
  exact (hif.append hsize.isLine (by decide)).append hdone (by decide)

/-! ### Reading the lines -/

/-- A line of more than three words is a statement. -/
theorem readLine_of_statement {ws : List String} {i : Instruction} {label : Option String}
    (hwords : Text.words s = ws) (hlength : 3 < ws.length)
    (h : statement m.locals s = .ok (i, label)) :
    readLine (.inMethod c m) line s =
      .ok (.inMethod c { m with statements := m.statements ++ [⟨i, label, line⟩] }) := by
  have hend : ws ≠ ["end"] := fun hend => by simp [hend] at hlength
  -- declarations have three words, a label has one
  have hadd : m.addLine line s = m.addStatement line s := by
    rw [MethodDraft.addLine, hwords]
    split
    · simp at hlength
    · simp at hlength
    · simp at hlength
    · rfl
  simp [readLine, hwords, hend, hadd, MethodDraft.addStatement, h, bind, Except.bind, pure,
    Except.pure, Except.map, Except.mapError]

/-- The statements of the loop, with their labels and lines. -/
def countedStatements (n : Int) : List DraftStatement := [
  ⟨.call ⟨.constructor, some ⟨"p", .object "PrinterArray"⟩, some "PrinterArray", "<init>",
    [.const n]⟩, none, 5⟩,
  ⟨.assign (.var ⟨"i", .int⟩) (.const 0), none, 6⟩,
  ⟨.branch .ge (.var ⟨"i", .int⟩) (.const n), some "done", 8⟩,
  ⟨.call ⟨.virtual, some ⟨"p", .object "PrinterArray"⟩, none, "sendJob", [.var ⟨"i", .int⟩]⟩,
    none, 9⟩,
  ⟨.assign (.var ⟨"i", .int⟩) (.binary .add (.var ⟨"i", .int⟩) (.const 1)), none, 10⟩,
  ⟨.goto, some "head", 11⟩,
  ⟨.ret, none, 13⟩]

/-- The method after some of its statements and labels. -/
def countedDraft (n : Int) (statements labels : Nat) : MethodDraft where
  name := "run"
  startLine := 2
  params := []
  locals := countedLocals
  statements := (countedStatements n).take statements
  labels := [("head", 2), ("done", 6)].take labels

/-- The lines of the text, one after the other. -/
private theorem readLines_countedLoopLines (hmin : Text.literalMin ≤ n)
    (hmax : n ≤ Text.literalMax) :
    readLines .start 1 (countedLoopLines n) = .ok (.inClass (countedClass n)) := by
  have hsize := plain_toString n
  have hoperand : operand countedLocals (toString n) = .ok (.const n) :=
    operand_text (o := .const n) (by decide) ⟨hmin, hmax⟩
  let c : Class := ⟨"Counted", [], []⟩
  let lines := countedLoopLines n
  -- only the two lines with the size need an argument, the others are computed
  calc readLines .start 1 lines
    _ = readLines (.inClass c) 2 (lines.drop 1) := readLines_of_content rfl (by decide) rfl
    _ = readLines (.inMethod c (.begin "Counted" "run" 2)) 3 (lines.drop 2) :=
      readLines_of_content rfl (by decide) rfl
    _ = readLines (.inMethod c ⟨"run", 2, [], countedLocals.take 2, [], []⟩) 4 (lines.drop 3) :=
      readLines_of_content rfl (by decide) rfl
    _ = readLines (.inMethod c (countedDraft n 0 0)) 5 (lines.drop 4) :=
      readLines_of_content rfl (by decide) rfl
    _ = readLines (.inMethod c (countedDraft n 1 0)) 6 (lines.drop 5) :=
      readLines_cons (isLine_newArray hsize) (readLine_of_statement (words_newArray hsize) (by simp)
        (statement_newArray hsize hoperand))
    _ = readLines (.inMethod c (countedDraft n 2 0)) 7 (lines.drop 6) :=
      readLines_of_content rfl (by decide) rfl
    _ = readLines (.inMethod c (countedDraft n 2 1)) 8 (lines.drop 7) :=
      readLines_of_content rfl (by decide) rfl
    _ = readLines (.inMethod c (countedDraft n 3 1)) 9 (lines.drop 8) :=
      readLines_cons (isLine_loopTest hsize) (readLine_of_statement (words_loopTest hsize) (by simp)
        (statement_loopTest hsize hoperand))
    _ = readLines (.inMethod c (countedDraft n 4 1)) 10 (lines.drop 9) :=
      readLines_of_content rfl (by decide) rfl
    _ = readLines (.inMethod c (countedDraft n 5 1)) 11 (lines.drop 10) :=
      readLines_of_content rfl (by decide) rfl
    _ = readLines (.inMethod c (countedDraft n 6 1)) 12 (lines.drop 11) :=
      readLines_of_content rfl (by decide) rfl
    _ = readLines (.inMethod c (countedDraft n 6 2)) 13 (lines.drop 12) :=
      readLines_of_content rfl (by decide) rfl
    _ = readLines (.inMethod c (countedDraft n 7 2)) 14 (lines.drop 13) :=
      readLines_of_content rfl (by decide) rfl
    _ = .ok (.inClass (countedClass n)) := readLines_of_content rfl (by decide) rfl

end Lines

end Source

/-- The loop is the body of a method in a text. -/
private theorem parse_countedLoopText {n : Int} (hmin : Text.literalMin ≤ n)
    (hmax : n ≤ Text.literalMax) :
    Class.parse (countedLoopText n) = .ok (countedClass n) := by
  have hsize := Source.plain_toString n
  have hlines : Text.lines (countedLoopText n) = countedLoopLines n := by
    apply Text.lines_join
    have hnewArray := (Source.isLine_newArray hsize).lineBreak
    have htest := (Source.isLine_loopTest hsize).lineBreak
    simp only [countedLoopLines, List.forall_mem_cons]
    exact ⟨by decide, by decide, by decide, by decide, hnewArray, by decide, by decide,
      htest, by decide,
      by decide, by decide, by decide, by decide, by decide, List.forall_mem_nil _⟩
  rw [Class.parse, hlines, Source.readLines_countedLoopLines hmin hmax]
  rfl

/-- Counted loops are proved safe. For every size `n` that can be written and is at least one, and
whatever the widening threshold, it is enough that the visit limit is at least five times the
threshold plus twenty. The text with the loop is accepted, and its method has the loop as its body.
On every procedure with that body, in any class and with any further locals, provided that the
collection is not a parameter, the verdict is that the analysis converged without a failure and no
index is out of bounds; the one access has the numbers from zero to `n - 1` as its index. -/
theorem Class.countedLoop_proved_safe (n : Int) (hn : 1 ≤ n) (hmax : n ≤ Text.literalMax)
    (settings : Settings) (hcollection : settings.collection = {})
    (hlimit : 5 * settings.wideningThreshold + 20 ≤ settings.visitLimit) :
    Class.parse (countedLoopText n) = .ok (countedClass n) ∧
    ∀ (c : Class) (p : Procedure) (array counter : String), p.graph = countedLoop array counter n →
      ⟨counter, .int⟩ ∈ p.locals → ⟨array, .object "PrinterArray"⟩ ∉ p.params →
      (c.verdictOn settings p).converged = true ∧ (c.verdictOn settings p).failureCount = 0 ∧
      (c.verdictOn settings p).boundsSafe = true ∧
      (c.verdictOn settings p).accesses = [countedAccess array n] := by
  have hmin : Text.literalMin ≤ n := by
    have hzero : Text.literalMin ≤ 0 := by decide
    omega
  refine ⟨parse_countedLoopText hmin hmax, fun c p array counter hgraph hcounter hparams => ?_⟩
  exact verdictOn_countedLoop c (by omega) hgraph hcounter hparams hcollection (by omega)

/-- The largest size that can be written, with the smallest visit limit. -/
theorem Class.countedLoop_proved_safe_largest :
    Class.parse (countedLoopText Text.literalMax) = .ok (countedClass Text.literalMax) ∧
    ((countedClass Text.literalMax).verify
      { wideningThreshold := 3, visitLimit := 35 }).boundsSafe = true ∧
    ((countedClass Text.literalMax).verify
      { wideningThreshold := 3, visitLimit := 35 }).procedures.map
      (·.accesses) = [[countedAccess "p" Text.literalMax]] := by
  obtain ⟨hparse, hverdict⟩ := Class.countedLoop_proved_safe Text.literalMax (by decide) le_rfl
    { wideningThreshold := 3, visitLimit := 35 } rfl (by decide)
  obtain ⟨-, -, hsafe, haccesses⟩ := hverdict (countedClass Text.literalMax)
    ⟨"run", [], countedLocals, countedLoop "p" "i" Text.literalMax⟩ "p" "i" rfl (by decide)
      (by decide)
  refine ⟨hparse, ?_, ?_⟩
  · exact (Bool.and_true _).trans hsafe
  · exact congrArg (fun accesses => [accesses]) haccesses

end RangeGuard
