import RangeGuard.Analysis.Transfer
import RangeGuard.Program.Loops
import RangeGuard.Settings

/-!
# Flow invariants

For each node of a flow graph, a state around all stores with which control can arrive there. The
entry starts from all stores, every other node from none, and each edge keeps the last state that
its source sent along it. Nodes whose incoming states changed wait in a queue; a visit merges the
incoming states of a node and sends the outcome of its instruction along its edges.

## Widening and recovery

A merge into a loop header is joined with the state that the header had, and from the merge given by
the widening threshold on it is widened, which makes the iteration end. Where an operation of the
domain fails, a state that is right in any case takes the place of its answer and the failure is
recorded.

`Iteration` holds what an iteration depends on and `Run` what it changes. One step is
`Iteration.visit`; the whole of it is `Domain.analyze`, up to the visit limit.
-/

namespace RangeGuard

/-! ## Failures and results -/

/-- What an iteration was doing when the domain failed. -/
inductive Phase where
  /-- Joining incoming states. -/
  | merge
  /-- Widening at a loop header. -/
  | widening
  /-- Applying an instruction. -/
  | transfer
  /-- Comparing the merged state with the previous one. -/
  | comparison
deriving DecidableEq

/-- An operation of the domain that failed. -/
structure Failure where
  /-- The node that was visited. -/
  node : Node
  /-- What the visit was doing. -/
  phase : Phase
  /-- Why the operation failed. -/
  fault : Fault
deriving DecidableEq

/-- The result of an iteration. -/
structure Analysis (σ : Type) where
  /-- The state before each node. -/
  before : List σ
  /-- The operations that failed, in order. -/
  failures : List Failure
  /-- No node was left to visit. Otherwise the states need not be around all stores. -/
  converged : Bool
  /-- The number of visits. -/
  visits : Nat

/-- The data of an iteration. -/
structure Run (σ : Type) where
  /-- The state before each node. -/
  before : List σ
  /-- Which nodes have been visited. -/
  visited : List Bool
  /-- The state last sent along each edge. -/
  sent : List (Option σ)
  /-- How often each loop header has been merged. -/
  merges : List Nat
  /-- The operations that failed. -/
  failures : Array Failure
  /-- The nodes that wait to be visited, the next one first. -/
  queue : List Node
  /-- The number of visits so far. -/
  visits : Nat

/-- What stays fixed during an iteration. -/
structure Iteration (σ : Type) where
  /-- The domain of the states. -/
  domain : Domain σ
  /-- The merge from which on headers are widened. -/
  wideningThreshold : Nat
  /-- The graph. -/
  graph : FlowGraph
  /-- Its loop headers. -/
  headers : List LoopHeader

namespace Iteration

variable {σ : Type}

/-- The iteration of a domain over a graph. -/
def of (d : Domain σ) (settings : Settings) (g : FlowGraph) : Iteration σ where
  domain := d
  wideningThreshold := settings.wideningThreshold
  graph := g
  headers := g.loopHeaders

/-- The iteration before its first visit: only the entry waits. -/
def start (it : Iteration σ) : Run σ where
  before := List.replicate it.graph.size it.domain.bottom
  visited := List.replicate it.graph.size false
  sent := List.replicate it.graph.edges.length none
  merges := List.replicate it.graph.size 0
  failures := #[]
  queue := [it.graph.entry]
  visits := 0

/-! ## Merging -/

/-- The join of the states on the edges that enter a node, together with all stores at the entry. -/
def inflow (it : Iteration σ) (run : Run σ) (n : Node) : Except Fault σ :=
  let start := if n = it.graph.entry then it.domain.top else it.domain.bottom
  -- edges along which nothing has been sent do not count
  ((it.graph.incoming n).filterMap fun e => run.sent.getD e none).foldlM it.domain.join start

/-- The node is a loop header. -/
def isHeader (it : Iteration σ) (n : Node) : Bool := FlowGraph.isLoopHeader it.headers n

/-- The next merge into this header is widened. -/
def widensAt (it : Iteration σ) (run : Run σ) (n : Node) : Bool :=
  decide (it.wideningThreshold ≤ run.merges.getD n 0 + 1)

/-- The incoming states of a node, joined, or all stores if joining failed. -/
def gathered (it : Iteration σ) (run : Run σ) (n : Node) : σ × List Failure :=
  match it.inflow run n with
  | .ok s => (s, [])
  | .error fault => (it.domain.top, [⟨n, .merge, fault⟩])

/-- The state of a loop header: what it had, joined or widened with what arrives. -/
def headerState (it : Iteration σ) (run : Run σ) (n : Node) (incoming : σ) : σ × List Failure :=
  let previous := run.before.getD n it.domain.bottom
  if it.widensAt run n then
    match it.domain.widen previous incoming with
    | .ok s => (s, [])
    | .error fault => (it.domain.top, [⟨n, .widening, fault⟩])
  else
    match it.domain.join previous incoming with
    | .ok s => (s, [])
    | .error fault => (it.domain.top, [⟨n, .merge, fault⟩])

/-- The state before a node, with the failures met on the way. -/
def merge (it : Iteration σ) (run : Run σ) (n : Node) : σ × List Failure :=
  let gathered := it.gathered run n
  if it.isHeader n then
    let state := it.headerState run n gathered.1
    (state.1, gathered.2 ++ state.2)
  else gathered

/-! ## Visits -/

/-- Puts a node at the end of the queue unless it waits already. -/
def enqueue (queue : List Node) (n : Node) : List Node :=
  if n ∈ queue then queue else queue ++ [n]

/-- Sends the outcome of a node along one of its edges. The target waits for a visit unless the edge
carried an equal state already; states that cannot be compared count as different. -/
def send (it : Iteration σ) (outcome : Outcome σ) (run : Run σ) (e : Nat) : Run σ :=
  match it.graph.edges[e]? with
  | none => run
  | some edge =>
    let state := outcome.along edge.kind
    let unchanged := match run.sent.getD e none with
      | some old => match it.domain.equal old state with
        | .ok same => same
        | .error _ => false
      | none => false
    if unchanged then run
    else { run with sent := run.sent.set e (some state), queue := enqueue run.queue edge.target }

/-- The outcome of the instruction at a node, with the failure met if there was one. -/
def outcome (it : Iteration σ) (n : Node) (s : σ) : Outcome σ × List Failure :=
  let i := it.graph.instruction n
  match it.domain.transfer s i with
  | .ok o => (o, [])
  | .error fault => (it.domain.fallback s i, [⟨n, .transfer, fault⟩])

/-- Whether a state differs from the one that the node had; states that cannot be compared count as
different. -/
def changes (it : Iteration σ) (run : Run σ) (n : Node) (s : σ) : Bool × List Failure :=
  match it.domain.equal s (run.before.getD n it.domain.bottom) with
  | .ok same => (!same, [])
  | .error fault => (true, [⟨n, .comparison, fault⟩])

/-- Counts a visit, and the merge if the node is a loop header. -/
def count (it : Iteration σ) (run : Run σ) (n : Node) (failures : List Failure) : Run σ :=
  { run with
    merges := if it.isHeader n then run.merges.modify n (· + 1) else run.merges
    -- a failed merge or comparison is recorded before a failed transfer
    failures := run.failures ++ failures
    visits := run.visits + 1 }

/-- Gives a node its state and sends the outcome of its instruction along its edges. -/
def spread (it : Iteration σ) (run : Run σ) (n : Node) (s : σ) : Run σ :=
  let result := it.outcome n s
  (it.graph.outgoing n).foldl (it.send result.1)
    { run with
      before := run.before.set n s
      visited := run.visited.set n true
      failures := run.failures ++ result.2 }

/-- Visits a node: merges its incoming states and, unless the node was visited before and its state
stays the same, spreads the merged state. -/
def visit (it : Iteration σ) (run : Run σ) (n : Node) : Run σ :=
  let merged := it.merge run n
  let changed := it.changes run n merged.1
  let counted := it.count run n (merged.2 ++ changed.2)
  -- a first visit spreads its state in any case, also if that is bottom
  if run.visited.getD n false && !changed.1 then counted
  else it.spread counted n merged.1

/-- Visits waiting nodes until none is left, at most the given number of times. -/
def iterate (it : Iteration σ) : Nat → Run σ → Run σ
  | 0, run => run
  | limit + 1, run =>
    match run.queue with
    | [] => run
    | n :: rest => it.iterate limit (it.visit { run with queue := rest } n)

end Iteration

/-- The result of an iteration that has been stopped. -/
def Run.analysis {σ : Type} (run : Run σ) : Analysis σ where
  before := run.before
  failures := run.failures.toList
  converged := run.queue.isEmpty
  visits := run.visits

/-- The flow invariants of a graph in a domain. -/
def Domain.analyze {σ : Type} (d : Domain σ) (settings : Settings) (g : FlowGraph) : Analysis σ :=
  let it := Iteration.of d settings g
  (it.iterate settings.visitLimit it.start).analysis

/-- The state before a node. -/
def Analysis.at {σ : Type} (a : Analysis σ) (d : Domain σ) (n : Node) : σ :=
  a.before.getD n d.bottom

end RangeGuard
