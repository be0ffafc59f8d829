import RangeGuard.Proofs.Domain.Soundness
import RangeGuard.Source.Class

/-!
# Faults of single lines

What can be wrong with a line lies in its text: reading a line never fails with a linking error.
Only the end of a method links statements, and then the whole body is at hand.

Faults are followed through the readers by one condition on the errors of a computation
(`Source.FailsOnly`), kept by every way in which readers are put together: binds, maps, traversals
and changes of the error. With these laws the lemma of a reader has the shape of the reader, and all
that is left to say is that the errors it raises itself are textual (`Source.Cause.IsTextual`).
-/

namespace RangeGuard

namespace Source

/-! ## §1 Errors of a computation -/

/-- Every error of the computation satisfies the condition. -/
def FailsOnly {ε α : Type} (E : ε → Prop) (x : Except ε α) : Prop :=
  ∀ fault, x = .error fault → E fault

namespace FailsOnly

variable {ε ε' α β : Type} {E : ε → Prop} {x : Except ε α}

theorem ok (a : α) : FailsOnly E (.ok a) := nofun

theorem error {fault : ε} (h : E fault) : FailsOnly E (.error fault : Except ε α) :=
  fun _ heq => Except.error.inj heq ▸ h

theorem imp {E' : ε → Prop} (hx : FailsOnly E x) (h : ∀ fault, E fault → E' fault) :
    FailsOnly E' x :=
  fun fault hfault => h fault (hx fault hfault)

/-- What follows a first part has to be looked at only for the results of that part. -/
theorem bind {f : α → Except ε β} (hx : FailsOnly E x) (hf : ∀ a, x = .ok a → FailsOnly E (f a)) :
    FailsOnly E (x >>= f) := by
  cases x with
  | error fault => exact error (hx fault rfl)
  | ok a => exact hf a rfl

theorem map {f : α → β} (hx : FailsOnly E x) : FailsOnly E (x.map f) := by
  cases x with
  | error fault => exact error (hx fault rfl)
  | ok a => exact ok (f a)

/-- The condition for changed errors is one on the errors that are changed. -/
theorem mapError {E : ε' → Prop} {f : ε → ε'} (hx : FailsOnly (fun fault => E (f fault)) x) :
    FailsOnly E (x.mapError f) := by
  cases x with
  | error fault => exact error (hx fault rfl)
  | ok a => exact ok a

/-- A traversal fails as one of its steps does. -/
theorem mapM {f : β → Except ε α} {l : List β} (hf : ∀ b ∈ l, FailsOnly E (f b)) :
    FailsOnly E (l.mapM f) := by
  induction l with
  | nil => exact ok []
  | cons b l ih =>
    obtain ⟨hb, hl⟩ := List.forall_mem_cons.mp hf
    rw [List.mapM_cons]
    exact hb.bind fun _ _ => (ih hl).bind fun _ _ => ok _

end FailsOnly

/-- The cause lies in the text of a line, not in how statements are linked. -/
def Cause.IsTextual : Cause → Prop
  | unlinkable _ => False
  | _ => True

open FailsOnly (ok error)

/-! ## §2 Names -/

private theorem failsOnly_identifier (s : String) : FailsOnly Cause.IsTextual (identifier s) := by
  unfold identifier
  split
  · exact ok _
  · exact error trivial

private theorem failsOnly_typeName (s : String) : FailsOnly Cause.IsTextual (typeName s) := by
  unfold typeName
  split
  · exact ok _
  · exact error trivial

private theorem failsOnly_declaredType (s : String) : FailsOnly Cause.IsTextual (declaredType s) :=
  (failsOnly_typeName _).bind fun _ _ => ok _

/-! ## §3 Operands and calls -/

variable (locals : List Local) (s : String)

private theorem failsOnly_variableNamed : FailsOnly Cause.IsTextual (variableNamed locals s) := by
  refine (failsOnly_identifier s).bind fun name _ => ?_
  unfold lookupLocal
  split
  · exact ok _
  · exact error trivial

private theorem failsOnly_operand : FailsOnly Cause.IsTextual (operand locals s) := by
  unfold operand
  split
  · exact ok _
  split
  · exact ok _
  split
  · exact ok _
  · exact (failsOnly_variableNamed locals s).bind fun _ _ => ok _

private theorem failsOnly_arguments : FailsOnly Cause.IsTextual (arguments locals s) := by
  unfold arguments
  split
  · exact ok _
  · exact .mapM fun arg _ => failsOnly_operand locals (Text.trim arg)

private theorem failsOnly_splitCall : FailsOnly Cause.IsTextual (splitCall s) := by
  unfold splitCall
  split
  · exact ok _
  · exact error trivial

private theorem failsOnly_call : FailsOnly Cause.IsTextual (call locals s) := by
  unfold call
  refine (failsOnly_splitCall s).bind fun ⟨callee, inner⟩ _ => ?_
  refine (failsOnly_arguments locals inner).bind fun args _ => ?_
  split
  · -- a receiver stands before the dot
    exact (failsOnly_variableNamed locals _).bind fun _ _ =>
      (failsOnly_identifier _).bind fun _ _ => ok _
  · exact (failsOnly_identifier _).bind fun _ _ => ok _

/-! ## §4 Assignments -/

private theorem failsOnly_place : FailsOnly Cause.IsTextual (place locals s) := by
  unfold place
  split
  · exact (failsOnly_variableNamed locals _).bind fun _ _ =>
      (failsOnly_operand locals _).bind fun _ _ => ok _
  split
  · exact (failsOnly_variableNamed locals _).bind fun _ _ =>
      (failsOnly_identifier _).bind fun _ _ => ok _
  · exact (failsOnly_variableNamed locals s).bind fun _ _ => ok _

private theorem failsOnly_simpleRhs : FailsOnly Cause.IsTextual (simpleRhs locals s) := by
  unfold simpleRhs
  split
  · exact ok _
  split
  · exact (failsOnly_operand locals _).bind fun _ _ => ok _
  split
  · exact (failsOnly_variableNamed locals _).bind fun _ _ => ok _
  · refine (failsOnly_operand locals s).bind fun value _ => ?_
    cases value with
    | const n => exact ok _
    | var v => exact ok _

private theorem failsOnly_rhs : FailsOnly Cause.IsTextual (rhs locals s) := by
  unfold rhs
  split
  · exact (failsOnly_call locals s).bind fun _ _ => ok _
  split
  · split
    · exact error trivial
    · exact (failsOnly_operand locals _).bind fun _ _ =>
        (failsOnly_operand locals _).bind fun _ _ => ok _
  · exact failsOnly_simpleRhs locals _
  · exact error trivial

private theorem failsOnly_assignment (left right : String) :
    FailsOnly Cause.IsTextual (assignment locals left right) := by
  unfold assignment
  refine (failsOnly_place locals left).bind fun target _ => ?_
  split
  · -- a new object, which only a local can receive
    split
    · exact (failsOnly_splitCall _).bind fun _ _ => (failsOnly_typeName _).bind fun _ _ =>
        (failsOnly_arguments locals _).bind fun _ _ => ok _
    · exact error trivial
  · exact (failsOnly_rhs locals right).bind fun _ _ => ok _

/-! ## §5 Lines -/

/-- The faults of a statement. -/
theorem failsOnly_statement : FailsOnly Cause.IsTextual (statement locals s) := by
  unfold statement
  split
  · split
    · exact error trivial
    · exact (failsOnly_operand locals _).bind fun _ _ =>
        (failsOnly_operand locals _).bind fun _ _ => ok _
  · exact error trivial
  · exact ok _
  · exact ok _
  · exact (failsOnly_operand locals _).bind fun _ _ => ok _
  · exact ok _
  · split
    · exact (failsOnly_assignment locals _ _).bind fun _ _ => ok _
    split
    · exact (failsOnly_call locals s).bind fun _ _ => ok _
    · exact error trivial

namespace MethodDraft

variable (m : MethodDraft)

private theorem failsOnly_declare (isParam : Bool) (type name : String) :
    FailsOnly Cause.IsTextual (m.declare isParam type name) := by
  unfold declare
  refine (failsOnly_declaredType type).bind fun ty _ => (failsOnly_identifier name).bind
    fun name _ => ?_
  split
  · exact error trivial
  · exact ok _

private theorem failsOnly_addLabel : FailsOnly Cause.IsTextual (m.addLabel s) := by
  unfold addLabel
  refine (failsOnly_identifier _).bind fun label _ => ?_
  split
  · exact error trivial
  · exact ok _

/-- The faults of a line in a method. -/
theorem failsOnly_addLine (line : Nat) : FailsOnly Cause.IsTextual (m.addLine line s) := by
  have hstatement : FailsOnly Cause.IsTextual (m.addStatement line s) :=
    (failsOnly_statement m.locals s).bind fun _ _ => ok _
  unfold addLine
  split
  · exact m.failsOnly_declare _ _ _
  · exact m.failsOnly_declare _ _ _
  · split
    · exact m.failsOnly_addLabel _
    · exact hstatement
  · exact hstatement

end MethodDraft

/-- The faults of the line that names the class. -/
theorem failsOnly_readHeader : FailsOnly Cause.IsTextual (readHeader s) := by
  unfold readHeader
  split
  · exact (failsOnly_typeName _).bind fun _ _ => ok _
  · exact error trivial

/-- The faults of a line between the members of a class. -/
theorem failsOnly_readMember (c : Class) (line : Nat) :
    FailsOnly Cause.IsTextual (readMember c line s) := by
  unfold readMember
  split
  · refine (failsOnly_identifier _).bind fun name _ => ?_
    split
    · exact error trivial
    · exact (failsOnly_declaredType _).bind fun _ _ => ok _
  · refine (failsOnly_identifier _).bind fun name _ => ?_
    split
    · exact error trivial
    · exact ok _
  · exact error trivial

end Source

end RangeGuard
