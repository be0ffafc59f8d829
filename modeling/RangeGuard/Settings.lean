import RangeGuard.Program.Ty

/-!
# Settings

What a verification depends on besides the program. The collection whose indexing is checked is
given by its class and the name of its indexing method (`Collection`). The iteration has two limits:
the merge from which on a loop header is widened, and the number of visits after which it is given
up (`Settings`).
-/

namespace RangeGuard

/-- A bounded collection: its constructor takes the size, and its indexing method an index. -/
structure Collection where
  /-- The class of the collection. -/
  className : String := "PrinterArray"
  /-- The method whose first argument is an index. -/
  indexMethod : String := "sendJob"
deriving DecidableEq, Inhabited

/-- The type is the class of the collection. -/
def Collection.hasType (c : Collection) (t : Ty) : Bool := t.isClass c.className

/-- The settings of a verification. -/
structure Settings where
  /-- The merge into a loop header from which on widening replaces the join. -/
  wideningThreshold : Nat := 6
  /-- The number of node visits after which an iteration is given up. -/
  visitLimit : Nat := 10000
  /-- The collection whose indexing is checked. -/
  collection : Collection := {}
  /-- A procedure during whose analysis an operation of the domain failed counts as unproven. -/
  strict : Bool := false
deriving DecidableEq, Inhabited

end RangeGuard
