import RangeGuard.Proofs.Source.Layout

/-!
# Accepted and refused texts

An accepted text gives a well-formed class: names are distinct, each procedure declares `this` first
and mentions only locals that it declares, and it lies in the lines between a `method` line with its
name and the next `end` line. A refused text has its error at one of its lines, and linking is never
the cause.

Both are kept line by line (`Source.Progress.Sound`). Between two lines it is known of each finished
method that it is well-formed, and of an unfinished one which lines it has been read from and that
all line numbers in it lie behind. The lines that count are those that say something
(`Source.contents`), but line numbers count all lines, so the invariant has both: the lines read so
far and the number of the next one.

Line numbers matter for the faults only. An error at the end of a method is reported at the line of
a jump, and an error at the end of the text at the first line of the method that is not finished;
both numbers were stored when those lines were read.
-/

namespace RangeGuard

/-- The lines that are not blank, without their comments and the white space around them. -/
def Source.contents (lines : List String) : List String :=
  (lines.map Source.content).filter fun s => s ≠ ""

/-- The procedure is a method of the text: it lies in the lines from the one with its name to the
next `end`. -/
def Procedure.WrittenIn (p : Procedure) (lines : List String) : Prop :=
  ∃ before first body last after, lines = before ++ first :: (body ++ last :: after) ∧
    Text.words first = ["method", p.name] ∧ Text.words last = ["end"] ∧
    (∀ s ∈ body, Text.words s ≠ ["end"]) ∧ p.LaidOut body

/-- What holds of an accepted class, apart from its text. -/
structure Class.WellFormed (c : Class) : Prop where
  /-- Fields have distinct names. -/
  fields : (c.fields.map (·.name)).Nodup
  /-- Procedures have distinct names. -/
  procedures : (c.procedures.map (·.name)).Nodup
  /-- The first local of a procedure is the object itself. -/
  this : ∀ p ∈ c.procedures, p.locals.head? = some ⟨"this", .object c.name⟩
  /-- Locals have distinct names, and parameters and the locals in instructions are among them. -/
  declared : ∀ p ∈ c.procedures, p.Declared
  /-- No procedure is empty. -/
  nonempty : ∀ p ∈ c.procedures, p.graph.nodes ≠ []

/-- A method stays a method of the text when lines are added. -/
theorem Procedure.WrittenIn.append {p : Procedure} {lines : List String} (h : p.WrittenIn lines)
    (more : List String) : p.WrittenIn (lines ++ more) := by
  obtain ⟨before, first, body, last, after, rfl, h⟩ := h
  exact ⟨before, first, body, last, after ++ more, by simp, h⟩

namespace Source

variable {c : Class} {m m' : MethodDraft} {read : List String} {line n : Nat} {s : String}

/-! ## §1 Between two lines -/

/-- The names, the receivers and the text of the finished methods. -/
structure Finished (c : Class) (read : List String) : Prop where
  fields : (c.fields.map (·.name)).Nodup
  procedures : (c.procedures.map (·.name)).Nodup
  this : ∀ p ∈ c.procedures, p.locals.head? = some ⟨"this", .object c.name⟩
  written : ∀ p ∈ c.procedures, p.WrittenIn read

/-- A method that is still read, before line `n`. -/
structure Unfinished (c : Class) (m : MethodDraft) (read : List String) (n : Nat) : Prop where
  /-- Its name is a new one. -/
  name : m.name ∉ c.procedures.map (·.name)
  this : m.locals.head? = some ⟨"this", .object c.name⟩
  /-- It has been read from all lines since the one with its name. -/
  lines : ∃ before first body, read = before ++ first :: body ∧
    Text.words first = ["method", m.name] ∧
    (∀ s ∈ body, Text.words s ≠ ["end"]) ∧ m.LaidOut body
  /-- The lines that it refers to lie behind. -/
  startLine : 1 ≤ m.startLine ∧ m.startLine < n
  statementLines : ∀ t ∈ m.statements, 1 ≤ t.line ∧ t.line < n

/-- What holds before line `n`, after the given lines that say something. -/
def Progress.Sound : Progress → List String → Nat → Prop
  | start, _, _ => True
  | inClass c, read, _ => Finished c read
  | inMethod c m, read, n => Finished c read ∧ Unfinished c m read n

/-- The error lies in the text, at a line before line `n`. -/
def Located (n : Nat) (e : SourceError) : Prop := e.cause.IsTextual ∧ 1 ≤ e.line ∧ e.line < n

/-- An error that lies behind stays behind. -/
theorem Located.mono {e : SourceError} {n' : Nat} (h : Located n e) (hn : n ≤ n') : Located n' e :=
  ⟨h.1, h.2.1, Nat.lt_of_lt_of_le h.2.2 hn⟩

/-- Further lines do not change the finished methods. -/
theorem Finished.append (h : Finished c read) (more : List String) : Finished c (read ++ more) where
  fields := h.fields
  procedures := h.procedures
  this := h.this
  written p hp := (h.written p hp).append more

/-- A blank line changes nothing. -/
theorem Progress.Sound.succ {progress : Progress} (h : progress.Sound read n) :
    progress.Sound read (n + 1) := by
  cases progress with
  | start => trivial
  | inClass c => exact h
  | inMethod c m =>
    obtain ⟨hc, hm⟩ := h
    refine ⟨hc, hm.name, hm.this, hm.lines, ?_, fun t ht => ?_⟩
    · exact ⟨hm.startLine.1, Nat.lt_succ_of_lt hm.startLine.2⟩
    · exact ⟨(hm.statementLines t ht).1, Nat.lt_succ_of_lt (hm.statementLines t ht).2⟩

/-! ## §2 One line -/

/-- After its first line a class has no members. -/
private theorem finished_header {progress : Progress} (h : readHeader s = .ok progress) :
    progress.Sound read n := by
  unfold readHeader at h
  split at h
  · obtain ⟨name, -, h⟩ := bind_eq_ok_iff.mp h
    obtain rfl := Except.ok.inj h
    exact ⟨List.nodup_nil, List.nodup_nil, nofun, nofun⟩
  · cases h

/-- A method begins with the line of its name. -/
private theorem unfinished_begin {name : String} (hnew : name ∉ c.procedures.map (·.name))
    (hwords : Text.words s = ["method", name]) (hline : 1 ≤ line) :
    Unfinished c (.begin c.name name line) (read ++ [s]) (line + 1) where
  name := hnew
  this := rfl
  lines := ⟨read, s, [], rfl, hwords, List.forall_mem_nil _, MethodDraft.laidOut_begin _ _ _⟩
  startLine := ⟨hline, Nat.lt_succ_self line⟩
  statementLines := List.forall_mem_nil _

/-- A line between two members of a class. -/
theorem Finished.readMember {next : Progress} (hc : Finished c read) (hline : 1 ≤ line)
    (h : readMember c line s = .ok next) : next.Sound (read ++ [s]) (line + 1) := by
  unfold Source.readMember at h
  split at h
  · -- a field
    obtain ⟨name, -, h⟩ := bind_eq_ok_iff.mp h
    split at h
    · cases h
    · rename_i hnew
      obtain ⟨ty, -, h⟩ := bind_eq_ok_iff.mp h
      obtain rfl := Except.ok.inj h
      have hnew : name ∉ c.fields.map (·.name) := by simpa using hnew
      refine ⟨?_, hc.procedures, hc.this, (hc.append [s]).written⟩
      rw [List.map_append]
      exact List.concat_eq_append ▸ hc.fields.concat hnew
  · -- the first line of a method
    rename_i name' hwords
    obtain ⟨name, hname, h⟩ := bind_eq_ok_iff.mp h
    split at h
    · cases h
    · rename_i hnew
      obtain rfl := Except.ok.inj h
      have hnew : name ∉ c.procedures.map (·.name) := by simpa using hnew
      rw [← eq_of_identifier hname] at hwords
      exact ⟨hc.append [s], unfinished_begin hnew hwords hline⟩
  · cases h

/-- The name, the first line and the first local stay, and new statements have the number of the
line. -/
theorem MethodDraft.Grows.frame (h : m.Grows line s m') :
    m'.name = m.name ∧ m'.startLine = m.startLine ∧
    (∀ v, m.locals.head? = some v → m'.locals.head? = some v) ∧
    ∀ t ∈ m'.statements, t ∈ m.statements ∨ t.line = line := by
  cases h with
  | declaration hs hlabel params v =>
    exact ⟨rfl, rfl, fun _ hv => by rw [List.head?_append, hv, Option.some_or], fun _ ht => .inl ht⟩
  | label label hlabel hnew => exact ⟨rfl, rfl, fun _ hv => hv, fun _ ht => .inl ht⟩
  | statement hs i hread hjump =>
    refine ⟨rfl, rfl, fun _ hv => hv, fun t ht => ?_⟩
    rcases List.mem_append.mp ht with ht | ht
    · exact .inl ht
    · exact .inr (by rw [List.mem_singleton.mp ht])

/-- A line of a method that is not the last one. -/
theorem Unfinished.addLine (hm : Unfinished c m read line) (hline : 1 ≤ line)
    (hend : Text.words s ≠ ["end"]) (h : m.addLine line s = .ok m') :
    Unfinished c m' (read ++ [s]) (line + 1) := by
  obtain ⟨hname, hstart, hhead, hstatements⟩ := (MethodDraft.grows_addLine h).frame
  -- the line is added to the body
  obtain ⟨before, first, body, rfl, hfirst, hbody, hlaid⟩ := hm.lines
  refine ⟨hname ▸ hm.name, hhead _ hm.this,
    ⟨before, first, body ++ [s], by simp, hname ▸ hfirst, ?_, hlaid.addLine h⟩, ?_, fun t ht => ?_⟩
  · exact List.forall_mem_append.mpr ⟨hbody, List.forall_mem_singleton.mpr hend⟩
  · rw [hstart]
    exact ⟨hm.startLine.1, Nat.lt_succ_of_lt hm.startLine.2⟩
  · rcases hstatements t ht with ht | rfl
    · exact ⟨(hm.statementLines t ht).1, Nat.lt_succ_of_lt (hm.statementLines t ht).2⟩
    · exact ⟨hline, Nat.lt_succ_self _⟩

/-- The last line of a method. -/
theorem Finished.finish {p : Procedure} (hc : Finished c read) (hm : Unfinished c m read n)
    (hend : Text.words s = ["end"]) (h : m.finish = .ok p) :
    Finished { c with procedures := c.procedures ++ [p] } (read ++ [s]) := by
  -- the body ends here, so the method lies between its two lines
  obtain ⟨before, first, body, rfl, hfirst, hbody, hlaid⟩ := hm.lines
  have hp := hlaid.finish h
  obtain ⟨linked, graph, -, -, rfl⟩ := MethodDraft.finish_eq_ok h
  refine ⟨hc.fields, ?_, ?_, ?_⟩
  · rw [List.map_append]
    exact List.concat_eq_append ▸ hc.procedures.concat hm.name
  · exact List.forall_mem_append.mpr ⟨hc.this, List.forall_mem_singleton.mpr hm.this⟩
  · refine List.forall_mem_append.mpr ⟨(hc.append [s]).written, List.forall_mem_singleton.mpr ?_⟩
    exact ⟨before, first, body, s, [], by simp, hfirst, hend, hbody, hp⟩

/-- A method can fail at its end only at one of its jumps. -/
theorem Unfinished.failsOnly_finish (hm : Unfinished c m read n) :
    FailsOnly (Located n) m.finish := by
  obtain ⟨before, first, body, -, -, -, hlaid⟩ := hm.lines
  refine hlaid.failsOnly_finish.imp ?_
  rintro fault ⟨hcause, t, ht, hline⟩
  rw [Located, hline]
  exact ⟨hcause, hm.statementLines t ht⟩

namespace Progress

variable {progress next : Progress}

/-- What a line keeps. -/
theorem Sound.readLine (hprogress : progress.Sound read line) (hline : 1 ≤ line)
    (h : readLine progress line s = .ok next) : next.Sound (read ++ [s]) (line + 1) := by
  unfold Source.readLine at h
  split at h
  · exact finished_header (eq_ok_of_mapError h)
  · exact Finished.readMember hprogress hline (eq_ok_of_mapError h)
  · obtain ⟨hc, hm⟩ := hprogress
    split at h
    · -- the method joins the finished ones
      rename_i hend
      obtain ⟨p, hp, h⟩ := bind_eq_ok_iff.mp h
      obtain rfl := Except.ok.inj h
      exact hc.finish hm hend hp
    · rename_i hend
      obtain ⟨m', hm', rfl⟩ := map_eq_ok_iff.mp (eq_ok_of_mapError h)
      exact ⟨hc.append [s], hm.addLine hline hend hm'⟩

/-- The faults of a line: its own and, at the end of a method, those of its jumps. -/
theorem Sound.failsOnly_readLine (hprogress : progress.Sound read line) (hline : 1 ≤ line) :
    FailsOnly (Located (line + 1)) (Source.readLine progress line s) := by
  -- the faults of the line itself have its number
  have hhere : ∀ {α : Type} {x : Except Cause α}, FailsOnly Cause.IsTextual x →
      FailsOnly (Located (line + 1)) (x.mapError (⟨line, ·⟩)) :=
    fun hx => .mapError fun fault hfault => ⟨hx fault hfault, hline, Nat.lt_succ_self line⟩
  unfold Source.readLine
  split
  · exact hhere (failsOnly_readHeader s)
  · exact hhere (failsOnly_readMember s _ line)
  · obtain ⟨-, hm⟩ := hprogress
    split
    · exact (hm.failsOnly_finish.imp fun _ h => h.mono (Nat.le_succ line)).bind fun _ _ => .ok _
    · exact hhere (FailsOnly.map (MethodDraft.failsOnly_addLine s _ line))

/-! ## §3 All lines -/

/-- What all lines keep. -/
theorem Sound.readLines (hprogress : progress.Sound read line) (hline : 1 ≤ line)
    {lines : List String} (h : readLines progress line lines = .ok next) :
    next.Sound (read ++ contents lines) (line + lines.length) := by
  -- on the lines that are left, with all that has been read generalised
  induction lines generalizing progress read line with
  | nil =>
    obtain rfl := Except.ok.inj h
    simpa [contents] using hprogress
  | cons s lines ih =>
    have hlength : line + (s :: lines).length = line + 1 + lines.length := by
      simp only [List.length_cons]
      omega
    rw [hlength]
    unfold Source.readLines at h
    dsimp only at h
    split at h
    · rename_i hblank
      have hcontents : contents (s :: lines) = contents lines := by simp [contents, hblank]
      rw [hcontents]
      exact ih hprogress.succ (Nat.le_succ_of_le hline) h
    · rename_i htext
      have hcontents : read ++ contents (s :: lines) = read ++ [content s] ++ contents lines := by
        simp [contents, htext]
      obtain ⟨progress', hread, h⟩ := bind_eq_ok_iff.mp h
      rw [hcontents]
      exact ih (hprogress.readLine hline hread) (Nat.le_succ_of_le hline) h

private theorem Sound.failsOnly_readLines (hprogress : progress.Sound read line) (hline : 1 ≤ line)
    (lines : List String) :
    FailsOnly (Located (line + lines.length)) (Source.readLines progress line lines) := by
  induction lines generalizing progress read line with
  | nil => exact .ok _
  | cons s lines ih =>
    have hlength : line + (s :: lines).length = line + 1 + lines.length := by
      simp only [List.length_cons]
      omega
    rw [hlength]
    unfold Source.readLines
    dsimp only
    split
    · exact ih hprogress.succ (Nat.le_succ_of_le hline)
    · refine FailsOnly.bind ?_ fun _ hread =>
        ih (hprogress.readLine hline hread) (Nat.le_succ_of_le hline)
      exact (hprogress.failsOnly_readLine hline).imp fun _ h => h.mono (Nat.le_add_right _ _)

end Progress

/-! ## §4 Texts -/

/-- What holds of the class of an accepted text. -/
theorem finished_of_parse {text : String} (h : Class.parse text = .ok c) :
    Finished c (contents (Text.lines text)) := by
  obtain ⟨progress, hlines, h⟩ := bind_eq_ok_iff.mp h
  have hstart : Progress.start.Sound [] 1 := trivial
  have hsound := hstart.readLines (Nat.le_refl 1) hlines
  split at h
  · cases h
  · obtain rfl := Except.ok.inj h
    exact hsound
  · cases h

/-- The error of a refused text is at one of its lines; an empty text has it at line one. -/
theorem failsOnly_parse (text : String) :
    FailsOnly (Located (max 1 (Text.lines text).length + 1)) (Class.parse text) := by
  have hstart : Progress.start.Sound [] 1 := trivial
  have hwithin : 1 + (Text.lines text).length ≤ max 1 (Text.lines text).length + 1 := by omega
  have hlines := (hstart.failsOnly_readLines (Nat.le_refl 1) (Text.lines text)).imp
    fun _ h => h.mono hwithin
  unfold Class.parse
  refine hlines.bind fun progress hread => ?_
  have hsound := hstart.readLines (Nat.le_refl 1) hread
  cases progress with
  | start => exact .error ⟨trivial, Nat.le_refl 1, Nat.lt_succ_of_le (Nat.le_max_left _ _)⟩
  | inClass c => exact .ok c
  | inMethod c m =>
    -- the error stands at the first line of the method, which was read
    obtain ⟨hfirst, hlast⟩ := hsound.2.startLine
    exact .error ⟨trivial, hfirst, Nat.lt_of_lt_of_le hlast hwithin⟩

end Source

/-- An accepted text gives a well-formed class whose procedures are the methods of the text. A
refused text has its error at one of its lines, and linking is never the cause. -/
theorem Class.parse_outcome (text : String) :
    (∀ c, Class.parse text = .ok c →
      c.WellFormed ∧ ∀ p ∈ c.procedures, p.WrittenIn (Source.contents (Text.lines text))) ∧
    ∀ e, Class.parse text = .error e →
      (∀ fault, e.cause ≠ .unlinkable fault) ∧ 1 ≤ e.line ∧
        e.line ≤ max 1 (Text.lines text).length := by
  constructor
  · intro c h
    have hc := Source.finished_of_parse h
    refine ⟨⟨hc.fields, hc.procedures, hc.this, Class.declared_of_parse h, fun p _ => ?_⟩,
      hc.written⟩
    exact p.graph.nonempty
  · intro e h
    obtain ⟨hcause, hfirst, hlast⟩ := Source.failsOnly_parse text e h
    refine ⟨fun fault hfault => ?_, hfirst, Nat.le_of_lt_succ hlast⟩
    rw [hfault] at hcause
    exact hcause

/-- A text with a jump back and a jump to a label at the end of the body. -/
def countdownText : String :=
  "class Down\nfield int k\nmethod run\nparam int n\ntop: # again\n" ++
    "n = n - 1\nif n < 0 goto done\ngoto top\ndone:\nend\n"

/-- The method of the text; its last node is the return before which the label at the end stands. -/
def countdown : Procedure where
  name := "run"
  params := [⟨"n", .int⟩]
  locals := [⟨"this", .object "Down"⟩, ⟨"n", .int⟩]
  graph := {
    nodes := [.assign (.var ⟨"n", .int⟩) (.binary .sub (.var ⟨"n", .int⟩) (.const 1)),
      .branch .lt (.var ⟨"n", .int⟩) (.const 0), .goto, .ret]
    edges := [⟨0, 1, .fall⟩, ⟨1, 3, .branch⟩, ⟨1, 2, .fall⟩, ⟨2, 0, .branch⟩]
    nonempty := by decide
    closed := by decide }

private theorem parse_countdownText :
    Class.parse countdownText = .ok ⟨"Down", [⟨"k", .int⟩], [countdown]⟩ :=
  Source.eq_ok_of_toOption (by decide +kernel)

/-- A text whose jump has no label. -/
def strandedText : String := "class Down\nmethod run\ngoto done\nend\n"

private theorem parse_strandedText :
    Class.parse strandedText = .error ⟨3, .undefinedLabel "done"⟩ := rfl

/-- The label at the end is followed by a return; without it the jump is at fault, at its line. -/
theorem Class.parse_outcome_countdown :
    (Class.parse countdownText = .ok ⟨"Down", [⟨"k", .int⟩], [countdown]⟩ ∧
      Class.WellFormed ⟨"Down", [⟨"k", .int⟩], [countdown]⟩ ∧
      countdown.WrittenIn (Source.contents (Text.lines countdownText)) ∧
      countdown.graph.branchEdges 1 = [⟨1, 3, .branch⟩] ∧ countdown.graph.instruction 3 = .ret) ∧
    Class.parse strandedText = .error ⟨3, .undefinedLabel "done"⟩ ∧
      3 ≤ max 1 (Text.lines strandedText).length := by
  obtain ⟨hwell, hwritten⟩ := (Class.parse_outcome countdownText).1 _ parse_countdownText
  have hrefused := (Class.parse_outcome strandedText).2 _ parse_strandedText
  refine ⟨⟨parse_countdownText, hwell, hwritten countdown (List.mem_singleton_self _), ?_, ?_⟩,
    parse_strandedText, hrefused.2.2⟩
  · decide
  · decide

end RangeGuard
