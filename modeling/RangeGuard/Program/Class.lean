import RangeGuard.Program.FlowGraph
import RangeGuard.Scope

/-!
# Classes

A class is a list of fields and procedures. The integer variables that the analysis of a procedure
tracks are its integer locals and the integer fields of its class (`Class.scopeOf`).
-/

namespace RangeGuard

/-- A procedure. -/
structure Procedure where
  /-- The name. -/
  name : String
  /-- The parameters. -/
  params : List Local
  /-- All locals, parameters included. -/
  locals : List Local
  /-- The body. -/
  graph : FlowGraph
deriving DecidableEq

/-- A class. -/
structure Class where
  /-- The qualified name. -/
  name : String
  /-- The fields. -/
  fields : List Local
  /-- The procedures. -/
  procedures : List Procedure
deriving DecidableEq

/-- The names of the integer-typed entries. -/
def integerNames (vars : List Local) : List String :=
  (vars.filter fun v => v.ty.isInt).map (·.name)

/-- The variables tracked in a procedure: its integer locals, then the integer fields. -/
def Class.scopeOf (c : Class) (p : Procedure) : Scope :=
  .ofNames (integerNames p.locals ++ integerNames c.fields)

end RangeGuard
