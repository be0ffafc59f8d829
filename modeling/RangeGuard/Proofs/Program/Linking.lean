import RangeGuard.Proofs.Domain.Soundness
import RangeGuard.Program.FlowGraph

/-!
# Linking statements

Linking succeeds on statements whose jumps have targets among them, and it gives every jump one edge
by which the jump is taken, to its target. All edges that leave a node are made when its statement
is linked, so what the statements before and after it contribute does not count.

The instructions differ in two respects only, namely whether they jump (`Instruction.isJump`) and
whether control may go on to the next statement (`Instruction.falls`). With these two tests the
edges of a statement have one equation for jumps and one for all others (§1), and no later proof
looks at the instructions again.

A list of statements is linked from some node `i` on. All lemmas about lists are by induction on the
statements, with `i` and the edges generalised; statement `k` of the rest is statement `k + 1` of
the list, and its node `i + 1 + k` is the same.
-/

namespace RangeGuard

/-- The instruction has a jump target. -/
def Instruction.isJump : Instruction → Bool
  | branch _ _ _ => true
  | goto => true
  | _ => false

/-- Control may go on to the next statement. -/
def Instruction.falls : Instruction → Bool
  | goto => false
  | ret => false
  | _ => true

namespace Statement

/-- If the statement jumps, then to one of `n` statements. -/
def Linkable (n : Nat) (s : Statement) : Prop :=
  s.instruction.isJump → ∃ t < n, s.jump = some t

/-- The edges of the statement at node `i` of `n` statements. -/
inductive HasEdge (n : Nat) (i : Node) (s : Statement) : Edge → Prop where
  | branch {t : Node} (hjump : s.instruction.isJump) (htarget : s.jump = some t) :
      HasEdge n i s ⟨i, t, .branch⟩
  | fall (hfalls : s.instruction.falls) (hnext : i + 1 < n) : HasEdge n i s ⟨i, i + 1, .fall⟩

/-- A statement makes edges from its own node only. -/
theorem HasEdge.source_eq {n : Nat} {i : Node} {s : Statement} {e : Edge} (h : s.HasEdge n i e) :
    e.source = i := by
  cases h <;> rfl

end Statement

namespace FlowGraph

variable {n i k t : Nat} {s : Statement} {statements : List Statement} {es : List Edge} {e : Edge}
  {g : FlowGraph}

/-! ## §1 One statement -/

/-- A jump target has to be there and in range. -/
private theorem jumpTarget_eq_ok_iff : jumpTarget n i s = .ok t ↔ s.jump = some t ∧ t < n := by
  unfold jumpTarget
  split
  · simp_all
  · rename_i t' htarget
    rw [htarget, Option.some.injEq]
    constructor
    · intro h
      split at h
      · exact ⟨Except.ok.inj h, Except.ok.inj h ▸ ‹_›⟩
      · cases h
    · rintro ⟨rfl, ht⟩
      rw [if_pos ht]

/-- The edge to the next statement, if control may go on to it. -/
def fallsFrom (n : Nat) (i : Node) (s : Statement) : List Edge :=
  if s.instruction.falls then fallEdges n i else []

/-- The edges of a statement: the jump, which may fail, and then the step to the next statement. -/
theorem exits_of_isJump (hjump : s.instruction.isJump) :
    exits n i s = do return ⟨i, ← jumpTarget n i s, .branch⟩ :: fallsFrom n i s := by
  obtain ⟨instruction, jump⟩ := s
  cases instruction with
  | branch | goto => rfl
  | assign | call | nop | ret => cases hjump

/-- Without a jump there is only the step to the next statement, and nothing can fail. -/
theorem exits_of_not_isJump (hjump : ¬s.instruction.isJump) :
    exits n i s = .ok (fallsFrom n i s) := by
  obtain ⟨instruction, jump⟩ := s
  cases instruction with
  | branch | goto => exact absurd rfl hjump
  | assign | call | nop | ret => rfl

theorem mem_fallsFrom :
    e ∈ fallsFrom n i s ↔ s.instruction.falls ∧ i + 1 < n ∧ e = ⟨i, i + 1, .fall⟩ := by
  by_cases hfalls : s.instruction.falls <;> by_cases hnext : i + 1 < n <;>
    simp [fallsFrom, fallEdges, hfalls, hnext]

/-- The edges that are made for a statement are those that it has. -/
theorem mem_exits (h : exits n i s = .ok es) : e ∈ es ↔ s.HasEdge n i e := by
  by_cases hjump : s.instruction.isJump
  · rw [exits_of_isJump hjump] at h
    obtain ⟨t, ht, h⟩ := bind_eq_ok_iff.mp h
    obtain rfl := Except.ok.inj h
    obtain ⟨htarget, -⟩ := jumpTarget_eq_ok_iff.mp ht
    rw [List.mem_cons, mem_fallsFrom]
    constructor
    · rintro (rfl | ⟨hfalls, hnext, rfl⟩)
      · exact .branch hjump htarget
      · exact .fall hfalls hnext
    · rintro (⟨-, htarget'⟩ | ⟨hfalls, hnext⟩)
      · -- a statement has one target, so the branch edge is the one that was made
        obtain rfl := Option.some.inj (htarget.symm.trans htarget')
        exact .inl rfl
      · exact .inr ⟨hfalls, hnext, rfl⟩
  · rw [exits_of_not_isJump hjump] at h
    obtain rfl := Except.ok.inj h
    rw [mem_fallsFrom]
    constructor
    · rintro ⟨hfalls, hnext, rfl⟩
      exact .fall hfalls hnext
    · rintro (⟨hjump', -⟩ | ⟨hfalls, hnext⟩)
      · exact absurd hjump' hjump
      · exact ⟨hfalls, hnext, rfl⟩

/-! ## §2 Linking succeeds -/

/-- A linkable statement gets its edges, at whatever node it stands. -/
theorem exists_exits (hs : s.Linkable n) (i : Node) : ∃ es, exits n i s = .ok es := by
  by_cases hjump : s.instruction.isJump
  · obtain ⟨t, ht, htarget⟩ := hs hjump
    rw [exits_of_isJump hjump]
    exact ⟨_, bind_eq_ok_iff.mpr ⟨t, jumpTarget_eq_ok_iff.mpr ⟨htarget, ht⟩, rfl⟩⟩
  · exact ⟨_, exits_of_not_isJump hjump⟩

/-- So does a list of linkable statements. -/
private theorem exists_link (hs : ∀ s ∈ statements, s.Linkable n) (i : Node) :
    ∃ es, link n i statements = .ok es := by
  induction statements generalizing i with
  | nil => exact ⟨[], rfl⟩
  | cons s rest ih =>
    obtain ⟨hs, hrest⟩ := List.forall_mem_cons.mp hs
    obtain ⟨here, hhere⟩ := exists_exits hs i
    obtain ⟨later, hlater⟩ := ih hrest (i + 1)
    exact ⟨here ++ later, bind_eq_ok_iff.mpr ⟨here, hhere, bind_eq_ok_iff.mpr ⟨later, hlater, rfl⟩⟩⟩

/-- Statements can be linked if there are some and every jump among them has one of them as its
target. -/
theorem exists_build (hne : statements ≠ [])
    (hs : ∀ s ∈ statements, s.Linkable statements.length) : ∃ g, build statements = .ok g := by
  obtain ⟨es, hes⟩ := exists_link hs 0
  unfold build
  rw [dif_neg hne]
  -- the edges are there, so the second branch of `build` is taken
  split
  · rename_i fault hfault
    rw [hes] at hfault
    cases hfault
  · exact ⟨_, rfl⟩

/-! ## §3 The edges of statements -/

/-- The edges that are made for a list are those that its statements have. -/
theorem mem_link (h : link n i statements = .ok es) :
    e ∈ es ↔ ∃ (k : Nat) (s : Statement), statements[k]? = some s ∧ s.HasEdge n (i + k) e := by
  induction statements generalizing i es with
  | nil =>
    obtain rfl := Except.ok.inj h
    simp
  | cons first rest ih =>
    obtain ⟨here, hhere, h⟩ := bind_eq_ok_iff.mp h
    obtain ⟨later, hlater, h⟩ := bind_eq_ok_iff.mp h
    obtain rfl := Except.ok.inj h
    rw [List.mem_append, mem_exits hhere, ih hlater]
    -- the rest starts at the next node, so its statement `k` is statement `k + 1` here
    constructor
    · rintro (he | ⟨k, s, hs, he⟩)
      · exact ⟨0, first, rfl, he⟩
      · exact ⟨k + 1, s, hs, by rwa [← Nat.add_assoc, Nat.add_right_comm]⟩
    · rintro ⟨k, s, hs, he⟩
      cases k with
      | zero =>
        obtain rfl := Option.some.inj hs
        exact .inl he
      | succ k =>
        rw [← Nat.add_assoc, Nat.add_right_comm] at he
        exact .inr ⟨k, s, hs, he⟩

/-- No edge leaves a node before the first statement. -/
theorem le_source_of_mem_link (h : link n i statements = .ok es) : ∀ e ∈ es, i ≤ e.source := by
  intro e he
  obtain ⟨k, s, -, he⟩ := (mem_link h).mp he
  rw [he.source_eq]
  exact Nat.le_add_right i k

/-! ## §4 The edges of a jump -/

/-- The edges by which the jump at a node is taken. -/
def branchEdges (g : FlowGraph) (i : Node) : List Edge :=
  g.edges.filter fun e => e.source = i ∧ e.kind = .branch

/-- Of the edges that leave a jump, the one to its target is a branch edge and the one to the next
statement, if there is one, is not. -/
theorem filter_exits (hs : s.instruction.isJump) (ht : s.jump = some t) (h : exits n i s = .ok es) :
    es.filter (fun e => e.source = i ∧ e.kind = .branch) = [⟨i, t, .branch⟩] := by
  rw [exits_of_isJump hs] at h
  obtain ⟨t', ht', h⟩ := bind_eq_ok_iff.mp h
  obtain rfl := Except.ok.inj h
  obtain rfl := Option.some.inj (ht.symm.trans (jumpTarget_eq_ok_iff.mp ht').1)
  have hfalls : (fallsFrom n i s).filter (fun e => e.source = i ∧ e.kind = .branch) = [] := by
    refine List.filter_eq_nil_iff.mpr fun e he => ?_
    obtain ⟨-, -, rfl⟩ := mem_fallsFrom.mp he
    simp
  rw [List.filter_cons_of_pos (by simp), hfalls]

/-- In a list of statements, a jump is taken along one edge. -/
private theorem filter_link (h : link n i statements = .ok es) (hs : statements[k]? = some s)
    (hjump : s.instruction.isJump) (ht : s.jump = some t) :
    es.filter (fun e => e.source = i + k ∧ e.kind = .branch) = [⟨i + k, t, .branch⟩] := by
  induction statements generalizing i k es with
  | nil => cases hs
  | cons first rest ih =>
    obtain ⟨here, hhere, h⟩ := bind_eq_ok_iff.mp h
    obtain ⟨later, hlater, h⟩ := bind_eq_ok_iff.mp h
    obtain rfl := Except.ok.inj h
    rw [List.filter_append]
    cases k with
    | zero =>
      -- later statements have later nodes as their sources
      obtain rfl := Option.some.inj hs
      have hnone : later.filter (fun e => e.source = i ∧ e.kind = .branch) = [] := by
        refine List.filter_eq_nil_iff.mpr fun e he hsource => ?_
        have hle : i + 1 ≤ i := (of_decide_eq_true hsource).1 ▸ le_source_of_mem_link hlater e he
        omega
      rw [Nat.add_zero, filter_exits hjump ht hhere, hnone, List.append_nil]
    | succ k =>
      -- the first statement contributes edges from its own node only
      have hnone : here.filter (fun e => e.source = i + (k + 1) ∧ e.kind = .branch) = [] := by
        refine List.filter_eq_nil_iff.mpr fun e he hsource => ?_
        have hnode : i = i + (k + 1) :=
          ((mem_exits hhere).mp he).source_eq.symm.trans (of_decide_eq_true hsource).1
        omega
      have hshift : i + (k + 1) = i + 1 + k := by omega
      rw [hnone, List.nil_append, hshift]
      exact ih hlater (List.getElem?_cons_succ ▸ hs)

/-- What a graph is built from. -/
theorem of_build (h : build statements = .ok g) :
    g.nodes = statements.map (·.instruction) ∧ link statements.length 0 statements =
      .ok g.edges := by
  unfold build at h
  split at h
  · cases h
  split at h
  · cases h
  · rename_i hlink
    obtain rfl := Except.ok.inj h
    exact ⟨rfl, hlink⟩

/-- In a graph, a jump is taken along one edge, to its target. -/
theorem branchEdges_of_build (h : build statements = .ok g) (hs : statements[i]? = some s)
    (hjump : s.instruction.isJump) (ht : s.jump = some t) :
    g.branchEdges i = [⟨i, t, .branch⟩] := by
  have hedges := filter_link (of_build h).2 hs hjump ht
  rwa [Nat.zero_add] at hedges

end FlowGraph

end RangeGuard
