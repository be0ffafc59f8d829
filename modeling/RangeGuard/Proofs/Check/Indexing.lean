import RangeGuard.Proofs.Check.Division

/-!
# Soundness of the indexing check

If every finding of the indexing check is safe, then every indexing call that a run makes on an
object has an index that is valid for that object. The oracle that resolves receivers to allocation
sites is a parameter, and all that is asked of it is soundness (`Oracle.Sound`): what it answers has
to cover the objects that the local refers to in the runs at hand.

The check may give up in several ways (no index, no answer of the oracle, a site without a known
size), and each of them is an unsafe finding. A safe finding therefore says that the oracle
answered, that every site of its answer has a constant size, and that the range of the index lies
below each of these sizes. The lemmas of §1 take a safe outcome apart in this way, from the outcome
of a list of sites down to the constructor call at a site.

The example of §3 is the loop for which the check is made. Its oracle answers the same site for
every local, which is sound because the program allocates one object only.
-/

namespace RangeGuard

/-! ## §1 Sites -/

/-- Whenever the oracle resolves a local of the collection's type, the object that the local refers
to in a run was allocated at one of the sites. -/
def Oracle.Sound (oracle : Oracle) (collection : Collection) (g : FlowGraph)
    (start : Memory → Prop) : Prop :=
  ∀ v sites, collection.hasType v.ty = true → oracle v = some sites →
    ∀ n m, g.Arrives start n m → ∀ o, m.refs v.name = some o → ∃ site ∈ sites, o = .allocated site

/-- The test for an index below the size is inclusion of intervals. -/
private theorem Interval.le_of_within {valid index : Interval} (h : valid.within index = true) :
    index ≤ valid := by
  unfold within inclusion at h
  by_cases hle : index ≤ valid
  · exact hle
  · rw [decide_eq_false hle] at h
    cases hback : decide (valid ≤ index) <;> rw [hback] at h <;> cases h

/-- Only a constant size gives valid indices. -/
private theorem validIndices_eq_some {args : List Operand} {valid : Interval}
    (h : validIndices args = some valid) : ∃ size rest, args = .const size :: rest ∧
      valid = .between (.finite 0) (.finite (size - 1)) := by
  unfold validIndices at h
  split at h
  · rename_i size rest
    exact ⟨size, rest, rfl, (Option.some.inj h).symm⟩
  · cases h

/-- Only constructor calls of the collection are sites. -/
private theorem siteAt?_eq_some {collection : Collection} {n : Node} {i : Instruction}
    {site : AllocationSite} (h : siteAt? collection n i = some site) :
    ∃ c, i = .call c ∧ c.constructs collection = true ∧ site = ⟨n, validIndices c.args⟩ := by
  unfold siteAt? at h
  split at h
  · rename_i c
    split at h
    · rename_i hconstructs
      exact ⟨c, rfl, hconstructs, (Option.some.inj h).symm⟩
    · cases h
  · cases h

/-- The valid indices of a site are those below the constant size of the constructor call there. -/
theorem validAt?_eq_some {g : FlowGraph} {collection : Collection} {site : Node} {valid : Interval}
    (h : validAt? (g.allocationSites collection) site = some valid) :
    ∃ c size rest, g.instruction site = .call c ∧ c.constructs collection = true ∧
      c.args = .const size :: rest ∧ valid = .between (.finite 0) (.finite (size - 1)) := by
  obtain ⟨entry, hfind, hvalid⟩ := Option.bind_eq_some_iff.mp h
  obtain rfl : entry.node = site := by simpa using List.find?_some hfind
  obtain ⟨⟨i, n⟩, hmem, hsite⟩ := List.mem_filterMap.mp (List.mem_of_find?_eq_some hfind)
  obtain ⟨c, rfl, hconstructs, rfl⟩ := siteAt?_eq_some hsite
  obtain ⟨size, rest, hargs, hvalid⟩ := validIndices_eq_some hvalid
  -- the table of sites is made from the numbered instructions of the graph
  have hget := List.mk_mem_zipIdx_iff_getElem?.mp hmem
  have hinstruction : g.instruction n = .call c := by
    rw [FlowGraph.instruction, List.getD_eq_getElem?_getD, hget, Option.getD_some]
  exact ⟨c, size, rest, hinstruction, hconstructs, hargs, hvalid⟩

/-- An outcome is safe if the index lies in the valid indices of each site. -/
theorem siteOutcome_eq_safe_iff {sites : List AllocationSite} {index : Interval}
    {targets : List Node} : siteOutcome sites index targets = .safe ↔
      ∀ site ∈ targets, ∃ valid, validAt? sites site = some valid ∧ valid.within index = true := by
  induction targets with
  | nil => simp [siteOutcome]
  | cons site rest ih =>
    -- the sites are checked one after the other, and the first unsafe one decides
    rw [List.forall_mem_cons, ← ih, siteOutcome]
    cases validAt? sites site with
    | none => simp
    | some valid =>
      cases hwithin : valid.within index <;> simp [hwithin]

/-- A safe access has a receiver that the oracle resolves and an index that is valid at each site.
-/
theorem accessOutcome_eq_safe {sites : List AllocationSite} {oracle : Oracle} {index : Interval}
    {receiver : Local} (h : accessOutcome sites oracle index receiver = .safe) :
    ∃ targets, oracle receiver = some targets ∧
      ∀ site ∈ targets, ∃ valid, validAt? sites site = some valid ∧ valid.within index = true := by
  unfold accessOutcome at h
  split at h
  · cases h
  · cases h
  · rename_i targets _ hresolved
    exact ⟨targets, hresolved, siteOutcome_eq_safe_iff.mp h⟩

/-! ## §2 Accesses -/

/-- Every indexing call at a node that is not bottom has its finding. -/
theorem Domain.exists_finding_of_access {σ : Type} {d : Domain σ} {a : Analysis σ}
    (sites : List AllocationSite) (oracle : Oracle) {collection : Collection} {g : FlowGraph}
    {n : Node} {c : Call} {receiver : Local} (hreached : d.isBottom (a.at d n) = false)
    (hcall : (g.instruction n).call? = some c) (hindexed : c.indexed? collection = some receiver) :
    ∃ f ∈ d.checkAccesses a sites oracle collection g, f.outcome = match c.args with
      | [] => .missingIndex
      | arg :: _ => accessOutcome sites oracle (d.operandRange (a.at d n) arg) receiver := by
  have hne : g.instruction n ≠ .nop := by
    intro hnop
    rw [hnop] at hcall
    cases hcall
  have hat : ∀ f, d.accessAt? a sites oracle collection n (g.instruction n) = some f →
      f ∈ d.checkAccesses a sites oracle collection g := fun f hf =>
    List.mem_filterMap.mpr ⟨_, FlowGraph.instruction_mem_zipIdx hne, hf⟩
  simp only [Domain.accessAt?, hcall, hindexed, Option.bind_eq_bind, Option.bind_some, hreached,
    Bool.false_eq_true, if_false] at hat
  cases hargs : c.args with
  | nil =>
    rw [hargs] at hat
    exact ⟨_, hat _ rfl, rfl⟩
  | cons arg rest =>
    rw [hargs] at hat
    exact ⟨_, hat _ rfl, rfl⟩

/-- Soundness of the indexing check for every sound oracle. If the analysis with boxes converged and
all findings are safe, then whenever a run makes a virtual call of the indexing method on a receiver
of the collection's type that refers to an object, the call has an index, the object was allocated
by a constructor call of the collection with a constant size, and every value that the index can be
read as is at least zero and below that size. -/
theorem Box.index_lt_size_of_checkAccesses (scope : Scope) (settings : Settings) (g : FlowGraph)
    (collection : Collection) (oracle : Oracle) (start : Memory → Prop)
    (hconverged : ((domain scope).analyze settings g).converged = true)
    (horacle : oracle.Sound collection g start)
    (hsafe : ((domain scope).checkAccesses ((domain scope).analyze settings g)
      (g.allocationSites collection) oracle collection g).all
        (fun f => decide (f.outcome = .safe)) = true)
    (n : Node) (m : Memory) (harr : g.Arrives start n m) (c : Call) (receiver : Local) (o : Object)
    (hcall : g.instruction n = .call c ∨ ∃ target, g.instruction n = .assign target (.call c))
    (hvirtual : c.kind = .virtual) (hmethod : c.method = collection.indexMethod)
    (hreceiver : c.receiver = some receiver) (htype : collection.hasType receiver.ty = true)
    (hobject : m.refs receiver.name = some o) :
    ∃ index args site allocation size rest, c.args = index :: args ∧ o = .allocated site ∧
      g.instruction site = .call allocation ∧ allocation.kind = .constructor ∧
      allocation.className = some collection.className ∧ allocation.args = .const size :: rest ∧
      ∀ v, index.Reads m.ints v → 0 ≤ v ∧ v < size := by
  have hcontains := contains_at_of_arrives hconverged harr
  have hcall? : (g.instruction n).call? = some c := by
    rcases hcall with hcall | ⟨target, hcall⟩ <;> rw [hcall] <;> rfl
  have hindexed : c.indexed? collection = some receiver := by
    rw [Call.indexed?, if_pos ⟨hvirtual, hmethod⟩, hreceiver]
    exact Option.filter_some_pos htype
  obtain ⟨f, hf, houtcome⟩ := Domain.exists_finding_of_access (g.allocationSites collection) oracle
    (isBottom_eq_false hcontains) hcall? hindexed
  rw [of_decide_eq_true (List.all_eq_true.mp hsafe f hf)] at houtcome
  cases hargs : c.args with
  | nil =>
    -- a call without an index is reported, so it is not safe
    rw [hargs] at houtcome
    cases houtcome
  | cons index args =>
    rw [hargs] at houtcome
    obtain ⟨targets, hresolved, hvalid⟩ := accessOutcome_eq_safe houtcome.symm
    -- the oracle names the site of the object, and the index was compared with its size
    obtain ⟨site, hsite, rfl⟩ := horacle receiver targets htype hresolved n m harr o hobject
    obtain ⟨valid, hvalidAt, hwithin⟩ := hvalid site hsite
    obtain ⟨allocation, size, rest, hinstruction, hconstructs, hsize, rfl⟩ :=
      validAt?_eq_some hvalidAt
    obtain ⟨hkind, hclass⟩ := (Bool.and_eq_true _ _).mp hconstructs
    refine ⟨index, args, site, allocation, size, rest, rfl, rfl, hinstruction,
      of_decide_eq_true hkind, of_decide_eq_true hclass, hsize, fun v hv => ?_⟩
    have hmem := Interval.mem_of_le (Interval.le_of_within hwithin) (mem_operandRange hcontains hv)
    rw [Interval.mem_between, Bound.finite_le_finite, Bound.finite_le_finite] at hmem
    omega

/-! ## §3 A loop over a collection -/

/-- A local that refers to a collection. -/
def jobs : Local := ⟨"a", .object "PrinterArray"⟩

/-- Allocates a collection of ten and indexes it with every number below ten. -/
def indexingLoop : FlowGraph where
  nodes := [.call ⟨.constructor, some jobs, some "PrinterArray", "<init>", [.const 10]⟩,
    .assign (.var counter) (.const 0), .branch .ge (.var counter) (.const 10),
    .call ⟨.virtual, some jobs, some "PrinterArray", "sendJob", [.var counter]⟩,
    .assign (.var counter) (.binary .add (.var counter) (.const 1)), .ret]
  edges := [⟨0, 1, .fall⟩, ⟨1, 2, .fall⟩, ⟨2, 5, .branch⟩, ⟨2, 3, .fall⟩, ⟨3, 4, .fall⟩,
    ⟨4, 2, .fall⟩]
  nonempty := by decide
  closed := by decide

private theorem loopHeaders_indexingLoop : indexingLoop.loopHeaders = [⟨2, 4⟩] := by
  simp [indexingLoop]

/-- The memory at the head of the loop. -/
def indexing (k : Int) : Memory := (counting k).setRef "a" (some (.allocated 0))

/-- The only objects of the loop come from its first statement. -/
theorem refs_indexingLoop {n : Node} {m : Memory} {x : String} {o : Object}
    (harr : indexingLoop.Arrives (fun m => ∀ x, m.refs x = none) n m) (ho : m.refs x = some o) :
    o = .allocated 0 := by
  induction harr generalizing x o with
  | entry hstart =>
    rw [hstart x] at ho
    cases ho
  | step _ hmem heffect ih =>
    -- assigning the counter gives no name a new object
    have hassigned : ∀ (s : Memory) (k : Int), ((s.setInt counter k).setRef "i" none).refs x =
        some o →
        s.refs x = some o := by
      intro s k h
      simp only [Memory.setRef, Memory.setInt, counter] at h
      split at h
      · cases h
      · exact h
    simp only [indexingLoop, List.mem_cons, List.not_mem_nil, or_false] at hmem
    -- one case for each edge; only the first one allocates
    rcases hmem with rfl | rfl | rfl | rfl | rfl | rfl
    · obtain rfl := heffect
      simp only [Memory.setRef] at ho
      split at ho
      · exact (Option.some.inj ho).symm
      · exact ih ho
    · obtain ⟨k, object, -, rfl, rfl⟩ := heffect
      exact ih (hassigned _ k ho)
    · exact ih (heffect.1 ▸ ho)
    · exact ih (heffect.1 ▸ ho)
    · obtain rfl := heffect
      exact ih ho
    · obtain ⟨k, object, -, rfl, rfl⟩ := heffect
      exact ih (hassigned _ k ho)

/-- Setting the counter keeps the collection. -/
private theorem indexing_setInt (k n : Int) :
    ((indexing k).setInt counter n).setRef "i" none = indexing n := by
  rw [indexing, indexing, ← counting_setInt k n]
  simp only [Memory.setRef, Memory.setInt, counter, if_pos, Memory.mk.injEq, true_and]
  funext x
  by_cases hx : x = "i" <;> simp [hx]

/-- The first trip through the loop comes to the indexing call with index zero. -/
private theorem arrives_indexingLoop :
    indexingLoop.Arrives (fun m => ∀ x, m.refs x = none) 3 (indexing 0) := by
  have hstart : indexingLoop.Arrives (fun m => ∀ x, m.refs x = none) 0 (counting 0) :=
    .entry fun _ => rfl
  have hallocated : indexingLoop.Arrives (fun m => ∀ x, m.refs x = none) 1 (indexing 0) :=
    .step (e := ⟨0, 1, .fall⟩) hstart (by decide) rfl
  have hheader : indexingLoop.Arrives (fun m => ∀ x, m.refs x = none) 2 (indexing 0) :=
    .step (e := ⟨1, 2, .fall⟩) hallocated (by decide)
      ⟨0, none, rfl, rfl, (indexing_setInt 0 0).symm⟩
  exact .step (e := ⟨2, 3, .fall⟩) hheader (by decide)
    ⟨rfl, 0, 10, fun _ => rfl, rfl, by simp [Comparator.Holds]⟩

/-- One site for every local is a sound answer, since there is no other object. -/
private theorem oracle_sound_indexingLoop :
    Oracle.Sound (fun _ => some [0]) {} indexingLoop (fun m => ∀ x, m.refs x = none) := by
  intro v sites _ hsites n m harr o ho
  obtain rfl := Option.some.inj hsites
  exact ⟨0, List.mem_singleton_self 0, refs_indexingLoop harr ho⟩

/-- The check passes, a run arrives at the call, and its index is below ten. -/
theorem index_lt_size_indexingLoop :
    ((Box.domain ⟨["i"], by decide⟩).analyze { wideningThreshold := 1 }
      indexingLoop).converged = true ∧
    indexingLoop.Arrives (fun m => ∀ x, m.refs x = none) 3 (indexing 0) ∧
    ∀ v, Operand.Reads (indexing 0).ints (.var counter) v → 0 ≤ v ∧ v < 10 := by
  let d := Box.domain ⟨["i"], by decide⟩
  let a := d.analyze { wideningThreshold := 1 } indexingLoop
  have hconverged : a.converged = true := by
    simp only [a, Domain.analyze, Iteration.of, loopHeaders_indexingLoop]
    decide +kernel
  have hsafe : (d.checkAccesses a (indexingLoop.allocationSites {}) (fun _ => some [0]) {}
      indexingLoop).all (fun f => decide (f.outcome = .safe)) = true := by
    simp only [a, Domain.analyze, Iteration.of, loopHeaders_indexingLoop]
    decide +kernel
  have htype : Collection.hasType {} jobs.ty = true := by decide
  refine ⟨hconverged, arrives_indexingLoop, fun v hv => ?_⟩
  obtain ⟨index, args, site, allocation, size, rest, hargs, hobject, hsite, -, -, hsize, hbounds⟩ :=
    Box.index_lt_size_of_checkAccesses ⟨["i"], by decide⟩ { wideningThreshold := 1 } indexingLoop {}
      (fun _ => some [0]) (fun m => ∀ x, m.refs x = none) hconverged oracle_sound_indexingLoop hsafe
      3 (indexing 0) arrives_indexingLoop _ jobs (.allocated 0) (.inl rfl) rfl rfl rfl htype rfl
  obtain ⟨rfl, -⟩ := List.cons.inj hargs
  -- the site is the first node, so the size is the constant there
  obtain rfl := Object.allocated.inj hobject
  obtain rfl := Instruction.call.inj hsite
  obtain ⟨hconst, -⟩ := List.cons.inj hsize
  rw [Operand.const.inj hconst]
  exact hbounds v hv

end RangeGuard
