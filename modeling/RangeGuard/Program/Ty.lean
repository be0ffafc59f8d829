/-!
# Declared types

The types of locals and fields. Only the integer type matters to the numeric analysis, and only the
class of a collection matters to the bounds check; the others are kept apart so that they can be
written back. Names of several primitive types denote the integer type (`Ty.ofName`), so the written
form of a type need not be the name it was read from.
-/

namespace RangeGuard

/-- The declared type of a local or a field. -/
inductive Ty where
  /-- The integers, whatever their declared width. -/
  | int
  /-- Wide integers, which are not tracked. -/
  | long
  /-- Single-precision numbers. -/
  | float
  /-- Double-precision numbers. -/
  | double
  /-- Arrays of an element type. -/
  | array (element : Ty)
  /-- Instances of a class. -/
  | object (className : String)
deriving DecidableEq, Inhabited

namespace Ty

/-- The type of a name without brackets. Narrow integers and truth values are integers; a name that
is not built in is a class. -/
def ofBaseName (name : String) : Ty :=
  if name ∈ ["int", "short", "byte", "char", "boolean"] then int
  else if name = "long" then long
  else if name = "float" then float
  else if name = "double" then double
  else object name

/-- The type of a name given from its last character to its first: each closing pair of brackets
makes an array. -/
def ofReversed : List Char → Ty
  | ']' :: '[' :: rest => array (ofReversed rest)
  | cs => ofBaseName (String.ofList cs.reverse)

/-- The type that a name denotes. -/
def ofName (name : String) : Ty := ofReversed name.toList.reverse

/-- The type is the integer type. -/
def isInt (t : Ty) : Bool := decide (t = int)

/-- The type is the class of the given name. -/
def isClass (t : Ty) (className : String) : Bool := decide (t = object className)

/-- The written form. -/
def text : Ty → String
  | int => "int"
  | long => "long"
  | float => "float"
  | double => "double"
  | array element => element.text ++ "[]"
  | object className => className

instance : ToString Ty := ⟨text⟩

end Ty

end RangeGuard
