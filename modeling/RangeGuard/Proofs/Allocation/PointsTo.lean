import RangeGuard.Proofs.Allocation.Chains
import RangeGuard.Proofs.Check.Division
import RangeGuard.Proofs.Source.Declarations

/-!
# What collection locals may hold, against runs

An object that a local holds in a run came into the procedure somewhere and was then handed on by
copies. It comes in with the receiver or a parameter, as the result of a call, as the content of a
field or an array element, or by a constructor call. The chains that a local is resolved through
follow the copies into collection-typed locals back, and take every constructor call of the
collection as a site, every other right side and every collection-typed parameter as a place where
an object from elsewhere may come in.

That accounts for an object if it came in at a local of the collection's type other than the
receiver, and every copy on its way was one into such a local. Locals of other types do no harm on a
chain as long as nothing comes in behind them. Two kinds of objects are missed. The receiver of a
method is no parameter, so where its class is the collection itself, a copy of it looks as if it
held nothing; and what is stored in a local of another type is not recorded.

The proof has three parts. `Instruction.Effect.refs_cases` says what one instruction can do to what
a local refers to. `Procedure.explained_of_effect` turns that into the step of an invariant over all
locals on the chains of the local in question, and `Procedure.explained_of_arrives` is the invariant
of the run. Its end, `Class.oracle_covers_run`, compares the invariant with the answer for the
local.
-/

open Relation (ReflTransGen)

namespace RangeGuard

/-! ## §1 Where objects come in -/

/-- The instruction at node `n` may give the local an object that it does not take from another
local: a new one, or one from elsewhere that is the result of a call or is not modelled further. -/
inductive Instruction.Brings (n : Node) : Instruction → Local → Object → Prop where
  | constructed {c : Call} {v : Local} (hkind : c.kind = .constructor)
      (hreceiver : c.receiver = some v) : Brings n (.call c) v (.allocated n)
  | result (v : Local) (c : Call) : Brings n (.assign (.var v) (.call c)) v .external
  | content (v : Local) (text : String) : Brings n (.assign (.var v) (.unmodeled text)) v .external

/-- What an assigned right side refers to is taken from another local, or the assignment brings
it. -/
private theorem Rhs.Refers.cases {value : Rhs} {refs : String → Option Object} {o : Object}
    (h : value.Refers refs (some o)) (n : Node) (v : Local) :
    (∃ source, value = .ref source ∧ refs source.name = some o) ∨
      (Instruction.assign (.var v) value).Brings n v o := by
  cases value with
  | ref source => exact .inl ⟨source, rfl, h.symm⟩
  | call c =>
    obtain rfl := Option.some.inj (h.resolve_left (Option.some_ne_none o))
    exact .inr (.result v c)
  | unmodeled text =>
    obtain rfl := Option.some.inj (h.resolve_left (Option.some_ne_none o))
    exact .inr (.content v text)
  | const | binary => cases h

/-- How a local can refer to an object after an instruction: it did so before, the instruction
copied the object from another local, or the instruction brought the object. -/
theorem Instruction.Effect.refs_cases {i : Instruction} {n : Node} {kind : EdgeKind} {m m' : Memory}
    (h : i.Effect n kind m m') {x : String} {o : Object} (ho : m'.refs x = some o) :
    m.refs x = some o ∨
    (∃ target source, i = .assign (.var target) (.ref source) ∧ target.name = x ∧
      m.refs source.name = some o) ∨
    ∃ v, i.Brings n v o ∧ v.name = x := by
  cases i with
  | assign target value =>
    cases target with
    | var v =>
      obtain ⟨k, object, -, hrefers, rfl⟩ := h
      by_cases hx : x = v.name
      · -- the local is the target, and has what the right side refers to
        obtain rfl : object = some o := by simpa [Memory.setRef, hx] using ho
        rcases hrefers.cases n v with ⟨source, rfl, hsource⟩ | hbrings
        · exact .inr (.inl ⟨v, source, rfl, hx.symm, hsource⟩)
        · exact .inr (.inr ⟨v, hbrings, hx.symm⟩)
      · refine .inl (ho ▸ ?_)
        simp only [Memory.setRef, if_neg hx, Memory.setInt]
        split <;> rfl
    | field base name => exact .inl (h.1 ▸ ho)
    | element base index => exact .inl (h.1 ▸ ho)
  | branch comparator left right => exact .inl (h.1 ▸ ho)
  | call c =>
    simp only [Effect] at h
    split at h
    · -- a constructor call gives its receiver the new object, and changes no other local
      rename_i v hkind hreceiver
      subst h
      by_cases hx : x = v.name
      · obtain rfl : Object.allocated n = o := by simpa [Memory.setRef, hx] using ho
        exact .inr (.inr ⟨v, .constructed hkind hreceiver, hx.symm⟩)
      · exact .inl (by simpa [Memory.setRef, hx] using ho)
    · exact .inl (h ▸ ho)
  | nop | goto =>
    obtain rfl : m' = m := h
    exact .inl ho
  | ret => exact False.elim h

namespace Procedure

/-- The local named `x` receives what the local named `y` holds: some instruction copies it. -/
def Receives (p : Procedure) (x y : String) : Prop :=
  ∃ target source, .assign (.var target) (.ref source) ∈ p.graph.nodes ∧ target.name = x ∧
    source.name = y

/-- Objects may come into the local other than by a copy. -/
def Acquires (p : Procedure) (v : Local) : Prop :=
  v.name = "this" ∨ v ∈ p.params ∨ ∃ n o, (p.graph.instruction n).Brings n v o

/-- Wherever an object can come in that reaches the local named `x`, it comes into a local of the
collection's type other than the receiver, and can reach `x` through such locals only. -/
def Tracks (p : Procedure) (collection : Collection) (x : String) : Prop :=
  ∀ v ∈ p.locals, p.Acquires v → ReflTransGen p.Receives x v.name →
    v.name ≠ "this" ∧ collection.hasType v.ty = true ∧
      ReflTransGen (p.Copies collection) x v.name

variable {p : Procedure} {collection : Collection} {r v : Local} {x y : String} {o : Object}
  {n : Node} {m : Memory}

/-- What a declared local receives comes from declared locals. -/
theorem exists_local_of_receives (hp : p.Declared) (hr : r ∈ p.locals)
    (hy : ReflTransGen p.Receives r.name y) : ∃ v ∈ p.locals, v.name = y := by
  rcases hy.cases_tail with rfl | ⟨z, -, hlast⟩
  · exact ⟨r, hr, rfl⟩
  · obtain ⟨target, source, hmem, -, rfl⟩ := hlast
    refine ⟨source, hp.instructions _ hmem ?_, rfl⟩
    exact List.mem_append_right _ (List.mem_singleton_self source)

/-- A local is tracked if all that it receives comes from locals of the collection's type other than
the receiver. -/
theorem tracks_of_hasType (hp : p.Declared)
    (h : ∀ v ∈ p.locals, ReflTransGen p.Receives x v.name →
      v.name ≠ "this" ∧ collection.hasType v.ty = true) : p.Tracks collection x := by
  -- every local on the way has the type of the collection, so each step is a copy of it
  have hcopies : ∀ y, ReflTransGen p.Receives x y → ReflTransGen (p.Copies collection) x y := by
    intro y hy
    induction hy with
    | refl => exact .refl
    | tail hchain hlast ih =>
      obtain ⟨target, source, hmem, rfl, rfl⟩ := hlast
      have htarget : target ∈ p.locals := hp.instructions _ hmem List.mem_cons_self
      exact ih.tail ⟨target, source, hmem, (h target htarget hchain).2, rfl, rfl⟩
  intro v hv _ hchain
  exact ⟨(h v hv hchain).1, (h v hv hchain).2, hcopies v.name hchain⟩

/-! ## §2 Runs -/

/-- The chains of the local named `x` account for an object: one of them ends where an object from
elsewhere may come in, or at the site of the object. -/
def Explained (p : Procedure) (collection : Collection) (x : String) (o : Object) : Prop :=
  (∃ y, ReflTransGen (p.Copies collection) x y ∧ p.FromElsewhere collection y) ∨
    ∃ y site, ReflTransGen (p.Copies collection) x y ∧ p.Constructs collection site y ∧
      o = .allocated site

/-- An instruction that does something stands at its node. -/
private theorem getElem?_of_instruction {i : Instruction} (h : p.graph.instruction n = i)
    (hne : i ≠ .nop) : p.graph.nodes[n]? = some i :=
  List.mk_mem_zipIdx_iff_getElem?.mp (h ▸ FlowGraph.instruction_mem_zipIdx (h ▸ hne))

/-- The locals that an instruction brings an object into are declared. -/
theorem mem_locals_of_brings (hp : p.Declared) (h : (p.graph.instruction n).Brings n v o) :
    v ∈ p.locals := by
  generalize hi : p.graph.instruction n = i at h
  cases h with
  | @constructed c _ _ hreceiver =>
    refine hp.instructions _ (List.mem_of_getElem? (getElem?_of_instruction hi nofun)) ?_
    simp [Instruction.locals, Call.locals, hreceiver]
  | result | content =>
    exact hp.instructions _ (List.mem_of_getElem? (getElem?_of_instruction hi nofun))
      List.mem_cons_self

/-- An object that is brought into a collection-typed local is accounted for at the local. -/
theorem explained_of_brings (h : (p.graph.instruction n).Brings n v o)
    (htype : collection.hasType v.ty = true)
    (hchain : ReflTransGen (p.Copies collection) x v.name) : p.Explained collection x o := by
  generalize hi : p.graph.instruction n = i at h
  cases h with
  | @constructed c _ hkind hreceiver =>
    have hnode := getElem?_of_instruction hi nofun
    -- a constructor of another class is not a site
    by_cases hclass : c.className = some collection.className
    · exact .inr ⟨v.name, n, hchain, ⟨c, v, hnode, hkind, hreceiver, htype, hclass, rfl⟩, rfl⟩
    · exact .inl ⟨v.name, hchain,
        .constructed (List.mem_of_getElem? hnode) hkind hreceiver htype hclass⟩
  | result | content =>
    have hnode := List.mem_of_getElem? (getElem?_of_instruction hi nofun)
    exact .inl ⟨v.name, hchain, .assigned hnode nofun htype⟩

/-- The objects with which a procedure is entered are accounted for. -/
theorem explained_of_initial (hp : p.Declared) (hr : r ∈ p.locals)
    (htracks : p.Tracks collection r.name) (hm : Memory.Initial p m)
    (hy : ReflTransGen p.Receives r.name y) (ho : m.refs y = some o) :
    p.Explained collection r.name o := by
  obtain ⟨-, rfl | ⟨v, hv, rfl⟩⟩ := hm y o ho
  · -- nothing reaches a tracked local from the receiver
    obtain ⟨v, hv, hname⟩ := exists_local_of_receives hp hr hy
    exact absurd hname (htracks v hv (.inl hname) (hname ▸ hy)).1
  · obtain ⟨-, htype, hchain⟩ := htracks v (hp.params hv) (.inr (.inl hv)) hy
    exact .inl ⟨v.name, hchain, .param hv htype⟩

/-- One instruction: if the objects of all locals that `r` receives from are accounted for, they are
so afterwards. -/
theorem explained_of_effect {kind : EdgeKind} {m' : Memory} (hp : p.Declared)
    (htracks : p.Tracks collection r.name)
    (hm : ∀ y, ReflTransGen p.Receives r.name y → ∀ o, m.refs y = some o →
      p.Explained collection r.name o)
    (heffect : (p.graph.instruction n).Effect n kind m m')
    (hy : ReflTransGen p.Receives r.name y) (ho : m'.refs y = some o) :
    p.Explained collection r.name o := by
  rcases heffect.refs_cases ho with hsame | ⟨target, source, hi, rfl, hsource⟩ | ⟨v, hbrings, rfl⟩
  · exact hm y hy o hsame
  · -- the object was in the source of the copy, which is on the chain as well
    have hcopy := List.mem_of_getElem? (getElem?_of_instruction hi nofun)
    exact hm source.name (hy.tail ⟨target, source, hcopy, rfl, rfl⟩) o hsource
  · -- the object comes in here, and the local has the type of the collection
    obtain ⟨-, htype, hchain⟩ :=
      htracks v (mem_locals_of_brings hp hbrings) (.inr (.inr ⟨n, o, hbrings⟩)) hy
    exact explained_of_brings hbrings htype hchain

/-- The objects of a run are accounted for, in all locals that a tracked local receives from. -/
theorem explained_of_arrives (hp : p.Declared) (hr : r ∈ p.locals)
    (htracks : p.Tracks collection r.name) (harr : p.graph.Arrives (Memory.Initial p) n m) :
    ∀ y, ReflTransGen p.Receives r.name y → ∀ o, m.refs y = some o →
      p.Explained collection r.name o := by
  induction harr with
  | entry hinitial => exact fun y hy o ho => explained_of_initial hp hr htracks hinitial hy ho
  | step _ _ heffect ih =>
    exact fun y hy o ho => explained_of_effect hp htracks ih heffect hy ho

end Procedure

/-- In the procedures of an accepted class, an object that a tracked local holds at any point of a
run was allocated during the run at one of the sites that the local is resolved to, unless the local
is not resolved. The statement of that site is a constructor call of the collection. -/
theorem Class.oracle_covers_run {text : String} {c : Class} (hparse : Class.parse text = .ok c)
    {p : Procedure} (hp : p ∈ c.procedures) (collection : Collection) {r : Local}
    (hr : r ∈ p.locals) (htracks : p.Tracks collection r.name) {n : Node} {m : Memory}
    (harr : p.graph.Arrives (Memory.Initial p) n m) {o : Object} (ho : m.refs r.name = some o) :
    p.oracle collection r = none ∨ ∃ sites, p.oracle collection r = some sites ∧
      ∃ site ∈ sites, o = .allocated site ∧
        ∃ allocation, p.graph.instruction site = .call allocation ∧
          allocation.constructs collection = true := by
  have hdeclared := Class.declared_of_parse hparse p hp
  -- the chains that account for the object are those of the answer
  rcases Procedure.explained_of_arrives hdeclared hr htracks harr r.name .refl o ho with
    hunresolved | ⟨y, site, hchain, hconstructs, rfl⟩
  · exact .inl (Procedure.oracle_eq_none_iff.mpr hunresolved)
  · cases htargets : p.oracle collection r with
    | none => exact .inl rfl
    | some sites =>
      have hsite : site ∈ sites := (Procedure.mem_oracle_iff htargets).mpr ⟨y, hchain, hconstructs⟩
      obtain ⟨allocation, v, hnode, hkind, -, -, hclass, -⟩ := hconstructs
      have hinstruction : p.graph.instruction site = .call allocation := by
        rw [FlowGraph.instruction, List.getD_eq_getElem?_getD, hnode, Option.getD_some]
      refine .inr ⟨sites, rfl, site, hsite, rfl, allocation, hinstruction, ?_⟩
      simp [Call.constructs, hkind, hclass]

/-! ## §3 A class of the collection itself

The local `r` copies a new collection. The local `s` copies it too, and then the receiver. -/

/-- A method of the collection that indexes a copy of its receiver. -/
def sharingText : String :=
  "class PrinterArray\nmethod run\nlocal PrinterArray q\nlocal PrinterArray r\n" ++
    "local PrinterArray s\nq = new PrinterArray(5)\nr = q\ns = q\ns = this\ns.sendJob(3)\nend\n"

/-- The method. -/
def sharing : Procedure where
  name := "run"
  params := []
  locals := [printers "this", printers "q", printers "r", printers "s"]
  graph := {
    nodes := [.call ⟨.constructor, some (printers "q"), some "PrinterArray", "<init>", [.const 5]⟩,
      .assign (.var (printers "r")) (.ref (printers "q")),
      .assign (.var (printers "s")) (.ref (printers "q")),
      .assign (.var (printers "s")) (.ref (printers "this")),
      .call ⟨.virtual, some (printers "s"), none, "sendJob", [.const 3]⟩]
    edges := [⟨0, 1, .fall⟩, ⟨1, 2, .fall⟩, ⟨2, 3, .fall⟩, ⟨3, 4, .fall⟩]
    nonempty := by decide
    closed := by decide }

private theorem parse_sharingText : Class.parse sharingText = .ok ⟨"PrinterArray", [], [sharing]⟩ :=
  Source.eq_ok_of_toOption (by decide +kernel)

private theorem declared_sharing : sharing.Declared :=
  Class.declared_of_parse parse_sharingText sharing (List.mem_singleton_self sharing)

/-- The memory in which only the receiver refers to an object. -/
def entered : Memory := Memory.setRef ⟨fun _ => 0, fun _ => none⟩ "this" (some .external)

/-- A method is entered with its receiver. -/
private theorem initial_entered : Memory.Initial sharing entered := by
  intro x o ho
  simp only [entered, Memory.setRef] at ho
  split at ho
  · rename_i hx
    exact ⟨(Option.some.inj ho).symm, .inl hx⟩
  · cases ho

/-- At the indexing call, `r` refers to the new collection and `s` to the receiver. -/
theorem arrives_sharing : ∃ m, sharing.graph.Arrives (Memory.Initial sharing) 4 m ∧
    m.refs "r" = some (.allocated 0) ∧ m.refs "s" = some .external := by
  have hentry : sharing.graph.Arrives (Memory.Initial sharing) 0 entered := .entry initial_entered
  have hallocated := FlowGraph.Arrives.step (e := ⟨0, 1, .fall⟩) hentry (by decide) rfl
  have hr := FlowGraph.Arrives.step (e := ⟨1, 2, .fall⟩) hallocated (by decide)
    ⟨0, _, nofun, rfl, rfl⟩
  have hs := FlowGraph.Arrives.step (e := ⟨2, 3, .fall⟩) hr (by decide) ⟨0, _, nofun, rfl, rfl⟩
  have hthis := FlowGraph.Arrives.step (e := ⟨3, 4, .fall⟩) hs (by decide) ⟨0, _, nofun, rfl, rfl⟩
  exact ⟨_, hthis, rfl, rfl⟩

/-- All that reaches `r` goes through `q`. -/
theorem tracks_sharing : sharing.Tracks {} "r" := by
  -- only the first copy has `r` or `q` as its target
  have hchain : ∀ y, ReflTransGen sharing.Receives "r" y → y = "r" ∨ y = "q" := by
    intro y hy
    induction hy with
    | refl => exact .inl rfl
    | tail _ hlast ih =>
      obtain ⟨target, source, hmem, rfl, rfl⟩ := hlast
      simp only [sharing, printers, List.mem_cons, reduceCtorEq, Instruction.assign.injEq,
        Place.var.injEq, Rhs.ref.injEq, List.not_mem_nil, false_or, or_false] at hmem
      rcases hmem with ⟨-, rfl⟩ | ⟨rfl, -⟩ | ⟨rfl, -⟩
      · exact .inr rfl
      · exact absurd ih (by decide)
      · exact absurd ih (by decide)
  refine Procedure.tracks_of_hasType declared_sharing fun v hv hreaches => ?_
  simp only [sharing, printers, List.mem_cons, List.not_mem_nil, or_false] at hv
  rcases hv with rfl | rfl | rfl | rfl
  · exact absurd (hchain _ hreaches) (by decide)
  · decide
  · decide
  · exact absurd (hchain _ hreaches) (by decide)

/-- What `r` refers to at the call was allocated at its one site. -/
theorem oracle_covers_run_sharing : sharing.oracle {} (printers "r") = some [0] ∧
    ∃ m, sharing.graph.Arrives (Memory.Initial sharing) 4 m ∧
      ∃ o, m.refs "r" = some o ∧ ∃ site ∈ [0], o = .allocated site := by
  have horacle : sharing.oracle {} (printers "r") = some [0] := by decide +kernel
  obtain ⟨m, harr, hr, -⟩ := arrives_sharing
  have hcovers := Class.oracle_covers_run (p := sharing) (r := printers "r") parse_sharingText
    (List.mem_singleton_self _) {} (by decide) tracks_sharing harr hr
  rw [horacle] at hcovers
  rcases hcovers with hnone | ⟨sites, hsites, site, hsite, ho, -⟩
  · cases hnone
  · obtain rfl := Option.some.inj hsites
    exact ⟨horacle, m, harr, _, hr, site, hsite, ho⟩

/-- The receiver is not accounted for: `s` is resolved to the site, and refers to the receiver when
it is indexed. -/
theorem oracle_misses_receiver :
    Class.parse sharingText = .ok ⟨"PrinterArray", [], [sharing]⟩ ∧
    sharing.oracle {} (printers "s") = some [0] ∧
    ∃ m, sharing.graph.Arrives (Memory.Initial sharing) 4 m ∧ m.refs "s" = some .external := by
  obtain ⟨m, harr, -, hs⟩ := arrives_sharing
  exact ⟨parse_sharingText, by decide +kernel, m, harr, hs⟩

end RangeGuard
