import RangeGuard.Interval.Basic
import RangeGuard.Program.FlowGraph
import RangeGuard.Settings

/-!
# Allocation sites

An allocation site is a statement that constructs an instance of the collection. It is identified by
its node. If the size is a constant, the valid indices are known: those from zero to below the size,
and none if the size is not positive.
-/

namespace RangeGuard

/-- A statement that constructs an instance of the collection. -/
structure AllocationSite where
  /-- The node of the statement. -/
  node : Node
  /-- The valid indices, if the size is a constant. -/
  valid : Option Interval
deriving DecidableEq

/-- The written form of the site at a node. -/
def siteText (n : Node) : String := "site@" ++ n.text

/-- The instruction constructs an instance of the collection. -/
def Call.constructs (c : Call) (collection : Collection) : Bool :=
  decide (c.kind = .constructor) && decide (c.className = some collection.className)

/-- The indices from zero to below a constant size; a size that is not positive leaves none. -/
def validIndices : List Operand → Option Interval
  | .const size :: _ => some (.between (.finite 0) (.finite (size - 1)))
  | _ => none

/-- The site at a node, if its instruction is a constructor call of the collection. -/
def siteAt? (collection : Collection) (n : Node) : Instruction → Option AllocationSite
  | .call c => if c.constructs collection then some ⟨n, validIndices c.args⟩ else none
  | _ => none

/-- The allocation sites of a graph, in the order of their nodes. -/
def FlowGraph.allocationSites (g : FlowGraph) (collection : Collection) : List AllocationSite :=
  g.nodes.zipIdx.filterMap fun p => siteAt? collection p.2 p.1

/-- The valid indices of the site at a node, if the table has the site and its size is known. -/
def validAt? (sites : List AllocationSite) (n : Node) : Option Interval :=
  (sites.find? fun site => site.node = n).bind (·.valid)

end RangeGuard
