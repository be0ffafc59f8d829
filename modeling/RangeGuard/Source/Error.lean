import RangeGuard.Program.FlowGraph

/-!
# Errors in source text

What can be wrong with a line of source text (`Cause`), with its wording, and where (`SourceError`).
Reading stops at the first error, so there is never more than one.
-/

namespace RangeGuard

namespace Source

/-- What is wrong with a line of source text. -/
inductive Cause where
  /-- The text does not start with the name of a class. -/
  | missingClass
  /-- A line outside a method is neither a field nor the start of a method. -/
  | strayLine (line : String)
  /-- A name that is not an identifier. -/
  | invalidIdentifier (name : String)
  /-- A name whose parts between the dots are not all identifiers. -/
  | invalidTypeName (name : String)
  /-- A conditional branch of another form than the one there is. -/
  | malformedBranch
  /-- A comparison that there is not. -/
  | unknownComparator (symbol : String)
  /-- An operator that there is not. -/
  | unknownOperator (symbol : String)
  /-- A right side of no known form. -/
  | malformedExpression (expression : String)
  /-- A statement of no known form. -/
  | malformedStatement (statement : String)
  /-- A text without arguments in parentheses at its end. -/
  | malformedCall (call : String)
  /-- A new object is assigned to something else than a local. -/
  | constructorTarget
  /-- A name that no local has. -/
  | undeclaredVariable (name : String)
  /-- A jump to a label that the method does not have. -/
  | undefinedLabel (label : String)
  /-- A name or label that is declared twice. -/
  | duplicate (name : String)
  /-- A method without an end. -/
  | unterminatedMethod (name : String)
  /-- The statements of a method cannot be linked. -/
  | unlinkable (error : LinkError)
deriving DecidableEq

/-- The wording of a cause. -/
def Cause.message : Cause → String
  | missingClass => "expected 'class <name>'"
  | strayLine line => "unexpected '" ++ line ++ "' outside a method"
  | invalidIdentifier name => "invalid identifier '" ++ name ++ "'"
  | invalidTypeName name => "invalid type name '" ++ name ++ "'"
  | malformedBranch => "expected 'if <a> <cmp> <b> goto <label>'"
  | unknownComparator symbol => "unknown comparator '" ++ symbol ++ "'"
  | unknownOperator symbol => "unknown operator '" ++ symbol ++ "'"
  | malformedExpression expression => "cannot parse expression '" ++ expression ++ "'"
  | malformedStatement statement => "cannot parse statement '" ++ statement ++ "'"
  | malformedCall call => "expected a call, found '" ++ call ++ "'"
  | constructorTarget => "'new' must be assigned to a local"
  | undeclaredVariable name => "undeclared variable '" ++ name ++ "'"
  | undefinedLabel label => "undefined label '" ++ label ++ "'"
  | duplicate name => "duplicate declaration of '" ++ name ++ "'"
  | unterminatedMethod name => "method '" ++ name ++ "' has no 'end'"
  | unlinkable error => error.message

end Source

/-- An error at a line; lines are counted from one. -/
structure SourceError where
  /-- The number of the line. -/
  line : Nat
  /-- What is wrong with it. -/
  cause : Source.Cause
deriving DecidableEq

/-- The wording of an error. -/
def SourceError.message (e : SourceError) : String :=
  "line " ++ toString e.line ++ ": " ++ e.cause.message

end RangeGuard
