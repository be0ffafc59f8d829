import RangeGuard.Analysis.Invariants
import RangeGuard.Program.Class

/-!
# Drawing flow graphs

The flow graph of a procedure in the DOT language, each node labelled with its instruction and the
state before it. Loop headers have a shape of their own, nodes that control cannot reach are gray,
and the edges that close a loop, that jump and that fall through differ in style (`DrawingStyle`).

A label stands in quotes, and the quotes inside it are escaped (`escapeQuotes`). Nothing else is: a
line break of the DOT language is written as it is.
-/

namespace RangeGuard

/-- The shapes and styles of a drawing. -/
structure DrawingStyle where
  /-- The shape of ordinary nodes. -/
  nodeShape : String := "box"
  /-- The shape of loop headers. -/
  headerShape : String := "doubleoctagon"
  /-- The style of jumps. -/
  branchStyle : String := "solid"
  /-- The style of edges to the next statement. -/
  fallStyle : String := "dashed"
  /-- The style of edges that close a loop. -/
  backStyle : String := "bold"
  /-- Labels show the state before the node. -/
  showStates : Bool := true
deriving DecidableEq

/-- Puts a backslash before each quote. -/
def escapeQuotes (s : String) : String :=
  String.ofList (s.toList.flatMap fun c => if c = '"' then ['\\', '"'] else [c])

namespace Domain

variable {σ : Type}

/-- The label of a node before it is quoted: the node, its instruction and, after a line break of
the DOT language, the state before it. -/
def labelText (d : Domain σ) (style : DrawingStyle) (n : Node) (i : Instruction) (s : σ) : String :=
  let head := n.text ++ ": " ++ i.text
  -- quotes in a state are escaped here, and once more with the whole label
  if style.showStates then head ++ "\\n" ++ escapeQuotes (d.render s) else head

/-- The line of a node. -/
def nodeLine (d : Domain σ) (style : DrawingStyle) (headers : List LoopHeader) (a : Analysis σ)
    (n : Node) (i : Instruction) : String :=
  let s := a.at d n
  let label := "label=\"" ++ escapeQuotes (d.labelText style n i s) ++ "\""
  let shape := if FlowGraph.isLoopHeader headers n then ["shape=" ++ style.headerShape] else []
  let color := if d.isBottom s then ["color=gray", "fontcolor=gray"] else []
  toString n ++ " [" ++ ", ".intercalate (label :: (shape ++ color)) ++ "];\n"

/-- The style of an edge. -/
def edgeStyle (style : DrawingStyle) (headers : List LoopHeader) (e : Edge) : String :=
  if FlowGraph.isBackEdge headers e then style.backStyle
  else match e.kind with
    | .branch => style.branchStyle
    | .fall => style.fallStyle

/-- The line of an edge. -/
def edgeLine (style : DrawingStyle) (headers : List LoopHeader) (e : Edge) : String :=
  toString e.source ++ " -> " ++ toString e.target ++
    " [style=" ++ edgeStyle style headers e ++ "];\n"

/-- The drawing of a procedure with the states of an analysis. -/
def draw (d : Domain σ) (style : DrawingStyle) (p : Procedure) (a : Analysis σ) : String :=
  let headers := p.graph.loopHeaders
  "digraph \"" ++ escapeQuotes p.name ++ "\" \x7b\n" ++
    "node [shape=" ++ style.nodeShape ++ ", fontname=monospace];\n" ++
    String.join (p.graph.nodes.zipIdx.map fun q => d.nodeLine style headers a q.2 q.1) ++
    String.join (p.graph.edges.map (edgeLine style headers)) ++
    "\x7d\n"

end Domain

end RangeGuard
