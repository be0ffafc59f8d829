import RangeGuard.Source.Error
import RangeGuard.Text.Letter
import RangeGuard.Text.Split

/-!
# Names in source text

A name is a letter, an underscore or a dollar sign, followed by any number of these and of numbers.
Names of classes are such names with dots between them, and a type is one with any number of pairs
of brackets behind it.
-/

namespace RangeGuard

namespace Source

/-- The character can start a name. -/
def startsName (c : Char) : Bool := Text.isLetter c || c == '_' || c == '$'

/-- The character can follow in a name. -/
def continuesName (c : Char) : Bool := startsName c || Text.isNumber c

/-- A letter, underscore or dollar sign, and then any number of those and of numbers. -/
def isIdentifier (s : String) : Bool :=
  match s.toList with
  | [] => false
  | c :: cs => startsName c && cs.all continuesName

/-- Reads an identifier. -/
def identifier (s : String) : Except Cause String :=
  if isIdentifier s then .ok s else .error (.invalidIdentifier s)

/-- Reads a qualified name: identifiers with dots between them. -/
def typeName (s : String) : Except Cause String :=
  if (Text.splitAll '.' s).all isIdentifier then .ok s else .error (.invalidTypeName s)

/-- Drops pairs of brackets from the start of a reversed name. -/
def dropBrackets : List Char → List Char
  | ']' :: '[' :: rest => dropBrackets rest
  | cs => cs

/-- Reads a type: a qualified name and any number of pairs of brackets. -/
def declaredType (s : String) : Except Cause Ty := do
  let _ ← typeName (String.ofList (dropBrackets s.toList.reverse).reverse)
  return Ty.ofName s

end Source

end RangeGuard
