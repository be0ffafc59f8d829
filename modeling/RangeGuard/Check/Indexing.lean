import RangeGuard.Allocation.Site
import RangeGuard.Check.Division

/-!
# Indexing check

Every call of the indexing method that control can reach has to use an index that is valid for each
allocation site the receiver may refer to. Which sites these are is the business of an `Oracle`; the
check compares the range of the index with the valid indices of one site after the other, and the
first site that is not proved decides (`AccessOutcome`).
-/

namespace RangeGuard

/-- The sites that a local may refer to, in increasing order; none if it cannot be resolved. -/
abbrev Oracle := Local → Option (List Node)

/-- What is known of an access. -/
inductive AccessOutcome where
  /-- The index is valid for every site. -/
  | safe
  /-- The receiver cannot be resolved to sites. -/
  | unresolved
  /-- The receiver refers to no site. -/
  | noTargets
  /-- The call has no index. -/
  | missingIndex
  /-- The valid indices of a site are not known. -/
  | unknownSize (site : Node)
  /-- The index may be invalid for a site. -/
  | outOfBounds (site : Node) (valid : Interval)
deriving DecidableEq

/-- The wording of an outcome. -/
def AccessOutcome.message : AccessOutcome → String
  | safe => "safe"
  | unresolved => "receiver cannot be resolved"
  | noTargets => "receiver refers to no allocation"
  | missingIndex => "no index argument"
  | unknownSize site => "size of " ++ siteText site ++ " is unknown"
  | outOfBounds site valid => "may exceed " ++ valid.text ++ " of " ++ siteText site

/-- The interval `index` lies in `valid`: the two are equal, or `valid` is strictly around it. -/
def Interval.within (valid index : Interval) : Bool :=
  match valid.inclusion index with
  | .equal => true
  | .superset => true
  | _ => false

/-- An access that control can reach. -/
structure AccessFinding where
  /-- The node of the call. -/
  node : Node
  /-- The receiver of the call. -/
  receiver : Local
  /-- The values that the index may take. -/
  index : Interval
  /-- What is known of the access. -/
  outcome : AccessOutcome
deriving DecidableEq

/-- The receiver of a call that indexes into the collection. -/
def Call.indexed? (c : Call) (collection : Collection) : Option Local :=
  if c.kind = .virtual ∧ c.method = collection.indexMethod then
    c.receiver.filter fun receiver => collection.hasType receiver.ty
  else none

/-- The outcome for a list of sites: the first site that is not proved decides. -/
def siteOutcome (sites : List AllocationSite) (index : Interval) : List Node → AccessOutcome
  | [] => .safe
  | site :: rest =>
    match validAt? sites site with
    | none => .unknownSize site
    | some valid =>
      if valid.within index then siteOutcome sites index rest else .outOfBounds site valid

/-- The outcome of an access with the given index values. -/
def accessOutcome (sites : List AllocationSite) (oracle : Oracle) (index : Interval)
    (receiver : Local) : AccessOutcome :=
  match oracle receiver with
  | none => .unresolved
  | some [] => .noTargets
  | some targets => siteOutcome sites index targets

/-- The finding at a node, if its instruction indexes into the collection and control reaches it. -/
def Domain.accessAt? {σ : Type} (d : Domain σ) (a : Analysis σ) (sites : List AllocationSite)
    (oracle : Oracle) (collection : Collection) (n : Node) (i : Instruction) :
    Option AccessFinding := do
  let c ← i.call?
  let receiver ← c.indexed? collection
  let s := a.at d n
  if d.isBottom s then none
  else match c.args with
    | [] => some ⟨n, receiver, .full, .missingIndex⟩
    | arg :: _ =>
      let index := d.operandRange s arg
      some ⟨n, receiver, index, accessOutcome sites oracle index receiver⟩

/-- The findings of a graph, in the order of its nodes. -/
def Domain.checkAccesses {σ : Type} (d : Domain σ) (a : Analysis σ) (sites : List AllocationSite)
    (oracle : Oracle) (collection : Collection) (g : FlowGraph) : List AccessFinding :=
  g.nodes.zipIdx.filterMap fun p => d.accessAt? a sites oracle collection p.2 p.1

end RangeGuard
