import ReactiveLang.Proofs.Analysis.Reads
import ReactiveLang.Proofs.Syntax.Scopes

/-!
# Plain programs

`streamDependencies` follows names and calls as they stand in the source. In a plain program what
runs is what the source names: functions and conversions are statements of the program, a name that
these statements give is given to nothing else, and every call names what it calls.

* `Analysis.Plain`: the condition on programs, which can be decided.
* `Analysis.Fair`: all sources that a node reads are calm. So are those of what is beneath it, and
  of what it refers to.
* `Plain.refersTo`: a reference to the name of a statement refers to the statement.
* `Plain.callee_cases`: what a call calls is what a name stands for, or a method of a text.
-/

namespace ReactiveLang

namespace Tree

variable (t : Tree)

/-- The statements of the program itself. -/
def topLevel : List NodeId := t.statements t.programBlock

def isBlock (id : NodeId) : Bool :=
  match t.construct id with
  | .block _ => true
  | _ => false

def isStructure (id : NodeId) : Bool :=
  match t.construct id with
  | .structureDef _ _ _ => true
  | _ => false

def isConversion (id : NodeId) : Bool :=
  match t.construct id with
  | .conversionDef _ _ _ => true
  | _ => false

def isCall (id : NodeId) : Bool :=
  match t.construct id with
  | .call _ _ => true
  | _ => false

/-- The name that a node gives to something. -/
def nameOf? (id : NodeId) : Option String := (t.construct id).definedName?

end Tree

namespace Analysis

/-- What the names and calls of a program stand for is clear from the source. -/
structure Plain (a : Analysis) : Prop where
  block : a.tree.isBlock a.tree.programBlock = true
  structures : ∀ i < a.tree.nodes.size, a.tree.isStructure ⟨i⟩ = false
  /-- Functions and conversions are statements of the program. -/
  definitions : ∀ id ∈ a.tree.reachable, (a.tree.scopeOf? id).isSome = true → id ∈ a.tree.topLevel
  /-- Nothing within a statement binds a name in the program's own scope. -/
  bindings : ∀ id ∈ a.tree.reachable, a.tree.isBinding id = true →
    a.tree.home id = a.tree.root → id ∈ a.tree.topLevel
  /-- The name of a statement is given to nothing else. -/
  names : ∀ id ∈ a.tree.topLevel, (a.tree.nameOf? id).isSome = true → ∀ other ∈ a.tree.reachable,
    a.tree.nameOf? other = a.tree.nameOf? id → other = id
  /-- Nothing takes the name of a kind of streams. -/
  streams : ∀ id ∈ a.tree.reachable, (a.tree.nameOf? id).bind StreamKind.ofName? = none
  calls : ∀ id ∈ a.tree.reachable, a.tree.isCall id = true → (a.callee id).isSome = true
  /-- The types of values decide which conversion runs, so none may read a source. -/
  conversions : ∀ id ∈ a.tree.reachable, a.tree.isConversion id = true →
    a.streamDependencies id = []

instance (a : Analysis) : Decidable a.Plain :=
  decidable_of_iff (a.tree.isBlock a.tree.programBlock = true ∧
      (∀ i < a.tree.nodes.size, a.tree.isStructure ⟨i⟩ = false) ∧
      (∀ id ∈ a.tree.reachable, (a.tree.scopeOf? id).isSome = true → id ∈ a.tree.topLevel) ∧
      (∀ id ∈ a.tree.reachable, a.tree.isBinding id = true →
        a.tree.home id = a.tree.root → id ∈ a.tree.topLevel) ∧
      (∀ id ∈ a.tree.topLevel, (a.tree.nameOf? id).isSome = true → ∀ other ∈ a.tree.reachable,
        a.tree.nameOf? other = a.tree.nameOf? id → other = id) ∧
      (∀ id ∈ a.tree.reachable, (a.tree.nameOf? id).bind StreamKind.ofName? = none) ∧
      (∀ id ∈ a.tree.reachable, a.tree.isCall id = true → (a.callee id).isSome = true) ∧
      ∀ id ∈ a.tree.reachable, a.tree.isConversion id = true → a.streamDependencies id = [])
    ⟨fun ⟨h1, h2, h3, h4, h5, h6, h7, h8⟩ => ⟨h1, h2, h3, h4, h5, h6, h7, h8⟩,
      fun h => ⟨h.block, h.structures, h.definitions, h.bindings, h.names, h.streams, h.calls,
        h.conversions⟩⟩

/-! ## What is calm -/

/-- All sources that a node reads are calm. -/
def Fair (a : Analysis) (calm : NodeId → Prop) (id : NodeId) : Prop :=
  ∀ source, a.Reads id source → a.Source source → calm source

section
variable {a : Analysis} {calm : NodeId → Prop} {id other : NodeId}

theorem fair_iff : a.Fair calm id ↔ ∀ source ∈ a.streamDependencies id, calm source :=
  ⟨fun h source hs =>
      h source (mem_streamDependencies_iff.1 hs).1 (mem_streamDependencies_iff.1 hs).2,
    fun h source hr hs => h source (mem_streamDependencies_iff.2 ⟨hr, hs⟩)⟩

theorem Fair.above (h : a.Fair calm id) (ha : a.tree.Above id other) : a.Fair calm other :=
  fun source hr => h source (.above ha hr)

theorem Fair.child (h : a.Fair calm id) (hc : other ∈ a.tree.children id) : a.Fair calm other :=
  h.above (.child .refl hc)

/-- What a definition reads is read by what refers to it. -/
theorem RefersTo.reads (h : a.RefersTo id other) {node : NodeId} (hr : a.Reads other node) :
    a.Reads id node := by
  induction hr with
  | beneath ha => exact .follow (.beneath .refl) h ha
  | follow _ hto ha ih => exact .follow ih hto ha

theorem Fair.refersTo (h : a.Fair calm id) (hto : a.RefersTo id other) : a.Fair calm other :=
  fun source hr => h source (hto.reads hr)

theorem Fair.source (h : a.Fair calm id) (hs : a.Source id) : calm id := h id (.beneath .refl) hs

end

/-! ## What plain programs name -/

/-- Neither a statement of the program nor a kind of streams has the name. -/
def IsLocal (a : Analysis) (name : String) : Prop :=
  (∀ id ∈ a.tree.topLevel, a.tree.nameOf? id ≠ some name) ∧ StreamKind.ofName? name = none

section
variable {a : Analysis} {id : NodeId}

theorem construct_programBlock (h : a.Plain) :
    a.tree.construct a.tree.programBlock = .block a.tree.topLevel := by
  have hb := h.block
  unfold Tree.isBlock at hb
  unfold Tree.topLevel Tree.statements
  split at hb
  · rename_i statements hc
    rw [hc]
  · cases hb

theorem Plain.not_structureDef (h : a.Plain) {name : String} {inputs : List NodeId}
    {body : Option NodeId} : a.tree.construct id ≠ .structureDef name inputs body := by
  intro hc
  have hlt : id.index < a.tree.nodes.size := index_lt_of_construct (by rw [hc]; nofun)
  have hs := h.structures id.index hlt
  rw [Tree.isStructure, hc] at hs
  cases hs

/-- A name stands for a kind of streams of that name, or for a definition. -/
theorem resolve_cases {t : Tree} {name : String} (hc : t.construct id = .reference name)
    {found : Definition} (hr : t.resolve id = some found) :
    (∃ kind, found = .stream kind ∧ StreamKind.ofName? name = some kind) ∨
      ∃ definition, t.definitionOf? definition = some found := by
  rw [Tree.resolve, hc] at hr
  rcases Option.or_eq_some_iff.1 hr with hr | ⟨-, hr⟩
  · obtain ⟨ancestor, -, hi⟩ := List.exists_of_findSome?_eq_some hr
    unfold Tree.introduced? at hi
    refine .inr ?_
    split at hi
    · obtain ⟨definition, -, hd⟩ := Option.bind_eq_some_iff.1 hi
      exact ⟨definition, hd⟩
    · obtain ⟨definition, -, hd⟩ := Option.bind_eq_some_iff.1 hi
      exact ⟨definition, hd⟩
    · obtain ⟨definition, -, hd⟩ := Option.bind_eq_some_iff.1 hi
      exact ⟨definition, hd⟩
    · cases hi
  · obtain ⟨kind, hk, rfl⟩ := Option.map_eq_some_iff.1 hr
    exact .inl ⟨kind, rfl, hk⟩

/-- What gives a name is a definition. -/
theorem exists_definitionOf? {t : Tree} {name : String} (hn : t.nameOf? id = some name) :
    ∃ found, t.definitionOf? id = some found := by
  unfold Tree.nameOf? at hn
  unfold Tree.definitionOf?
  cases hc : t.construct id with
  | binding | functionDef | structureDef => exact ⟨_, rfl⟩
  | _ =>
    rw [hc] at hn
    cases hn

section
variable (w : a.tree.WellFormed) (h : a.Plain)
include w

theorem reaches_programBlock : a.tree.Reaches a.tree.programBlock ∧
    a.tree.children a.tree.root = [a.tree.programBlock] := by
  obtain ⟨block, hb⟩ := w.root
  have hblock : a.tree.programBlock = block := by rw [Tree.programBlock, hb]
  have hc : a.tree.children a.tree.root = [block] := by rw [Tree.children, hb]; rfl
  rw [hblock]
  exact ⟨Tree.Reaches.child ⟨0, .root⟩ (by rw [hc]; exact List.mem_singleton_self _), hc⟩

/-- A statement of the program is in the program's own scope. -/
theorem topLevel_home {statement : NodeId} (hs : statement ∈ a.tree.topLevel) :
    a.tree.Reaches statement ∧ a.tree.home statement = a.tree.root := by
  obtain ⟨hreach, hc⟩ := reaches_programBlock w
  refine ⟨hreach.statement hs, ?_⟩
  obtain ⟨block, hb⟩ := w.root
  have hchild : block ∈ a.tree.children a.tree.root := by
    rw [Tree.children, hb]
    exact List.mem_singleton_self _
  rw [w.statement_home hreach hs, Tree.programBlock, hb, w.home_child ⟨0, .root⟩ hchild,
    Tree.scopeOf?, hb]
  exact w.home_root

/-- All but the program and its block are beneath the block. -/
theorem programBlock_mem_ancestors (hr : a.tree.Reaches id) : id = a.tree.root ∨
    id = a.tree.programBlock ∨ a.tree.programBlock ∈ a.tree.ancestors id := by
  obtain ⟨n, hn⟩ := hr
  induction hn with
  | root => exact .inl rfl
  | @child n parent id hp hc ih =>
    rw [w.ancestors_child ⟨n, hp⟩ hc]
    rcases ih with rfl | rfl | ih
    · rw [(reaches_programBlock w).2] at hc
      exact .inr (.inl (List.mem_singleton.1 hc))
    · exact .inr (.inr List.mem_cons_self)
    · exact .inr (.inr (List.mem_cons_of_mem _ ih))

include h

section
variable {name : String} {statement : NodeId} (hs : statement ∈ a.tree.topLevel)
  (hn : a.tree.nameOf? statement = some name)
include hs hn

/-- Nothing else is found under the name of a statement. -/
theorem Plain.findNamed_eq {ids : List NodeId} {other : NodeId}
    (hids : ∀ id ∈ ids, a.tree.Reaches id) (hf : a.tree.findNamed ids name = some other) :
    other = statement := by
  have hname : a.tree.nameOf? other = some name := by
    simpa [Tree.nameOf?] using List.find?_some hf
  exact h.names statement hs (by rw [hn]; rfl) other
    (w.mem_reachable (hids other (List.mem_of_find?_eq_some hf))) (by rw [hname, hn])

/-- The block of the program brings the statement into scope. -/
theorem Plain.introduced?_programBlock :
    a.tree.introduced? name a.tree.programBlock = a.tree.definitionOf? statement := by
  rw [Tree.introduced?, construct_programBlock h]
  dsimp only
  cases hf : a.tree.findNamed a.tree.topLevel name with
  | none =>
    have hno := List.find?_eq_none.1 hf statement hs
    exact absurd hn (by simpa [Tree.nameOf?] using hno)
  | some other =>
    rw [h.findNamed_eq w hs hn (fun id hid => (topLevel_home w hid).1) hf]
    rfl

/-- Nothing brings another definition into scope under its name. -/
theorem Plain.introduced?_eq {found : Definition} (hr : a.tree.Reaches id)
    (hi : a.tree.introduced? name id = some found) :
    a.tree.definitionOf? statement = some found := by
  have hsame : ∀ {ids : List NodeId}, (∀ id ∈ ids, a.tree.Reaches id) →
      (a.tree.findNamed ids name).bind a.tree.definitionOf? = some found →
        a.tree.definitionOf? statement = some found := by
    intro ids hids hb
    obtain ⟨other, hf, hd⟩ := Option.bind_eq_some_iff.1 hb
    rwa [h.findNamed_eq w hs hn hids hf] at hd
  unfold Tree.introduced? at hi
  split at hi
  · rename_i hf
    refine hsame (fun id hid => hr.input ?_) hi
    rw [Tree.inputsOf, hf]
    exact hid
  · exact absurd ‹_› h.not_structureDef
  · rename_i hb
    refine hsame (fun id hid => hr.statement ?_) hi
    rw [Tree.statements, hb]
    exact hid
  · cases hi

/-- A reference to the name of a statement refers to the statement. -/
theorem Plain.resolve_eq (hr : a.tree.Reaches id) (hc : a.tree.construct id = .reference name) :
    ∃ found, a.tree.resolve id = some found ∧ a.tree.definitionOf? statement = some found := by
  obtain ⟨found, hdef⟩ := exists_definitionOf? hn
  have hblock := (h.introduced?_programBlock w hs hn).trans hdef
  have hancestor : a.tree.programBlock ∈ a.tree.ancestors id := by
    rcases programBlock_mem_ancestors w hr with rfl | rfl | ha
    · obtain ⟨block, hb⟩ := w.root
      rw [hb] at hc
      cases hc
    · rw [construct_programBlock h] at hc
      cases hc
    · exact ha
  refine ⟨found, ?_, hdef⟩
  rw [Tree.resolve, hc]
  dsimp only
  rw [Tree.resolveName]
  cases hfind : (a.tree.ancestors id).findSome? (a.tree.introduced? name) with
  | none =>
    rw [List.findSome?_eq_none_iff.1 hfind _ hancestor] at hblock
    cases hblock
  | some other =>
    obtain ⟨ancestor, ha, hi⟩ := List.exists_of_findSome?_eq_some hfind
    have hother := h.introduced?_eq w hs hn (w.ancestorsFrom_reaches hr _ ha) hi
    rw [hdef] at hother
    cases hother
    rfl

/-- So the statement reads nothing that the reference does not read. -/
theorem Plain.refersTo (hr : a.tree.Reaches id) (hc : a.tree.construct id = .reference name) :
    a.RefersTo id statement := by
  obtain ⟨found, hfound, hdef⟩ := h.resolve_eq w hs hn hr hc
  exact .reference hfound (Tree.node?_of_definitionOf? hdef)

end

/-- What a call calls is a function that a statement declares, a kind of streams, or what a property
gives. -/
theorem Plain.callee_cases {function : NodeId} {inputs : List NodeId} (hr : a.tree.Reaches id)
    (hc : a.tree.construct id = .call function inputs) :
    (∃ name definition, a.tree.construct function = .reference name ∧
      a.callee id = some (.function definition) ∧ definition ∈ a.tree.topLevel ∧
        ∃ inputs output body,
          a.tree.construct definition = .functionDef name inputs output body) ∨
      (∃ name kind, a.tree.construct function = .reference name ∧
        a.callee id = some (.stream kind) ∧ StreamKind.ofName? name = some kind) ∨
      ∃ subject name, a.tree.construct function = .property subject name := by
  have hfunction : a.tree.Reaches function := by
    refine hr.child ?_
    rw [Tree.children, hc]
    exact List.mem_cons_self
  have hcalls := h.calls id (w.mem_reachable hr) (by rw [Tree.isCall, hc])
  have hcallee : a.callee id = a.given (Inquiry.calledBy? a.tree function) := by
    rw [callee, Inquiry.callee, hc]
  cases hf : a.tree.construct function with
  | property subject name => exact .inr (.inr ⟨subject, name, rfl⟩)
  | reference name =>
    have hlookUp : a.given (Inquiry.lookUp function) = a.tree.resolve function := rfl
    rw [hcallee, Inquiry.calledBy?, hf] at hcalls ⊢
    dsimp only at hcalls ⊢
    rw [given_bind, hlookUp] at hcalls ⊢
    cases hfound : a.tree.resolve function with
    | none =>
      rw [hfound] at hcalls
      cases hcalls
    | some found =>
      rw [hfound] at hcalls
      obtain ⟨kind, rfl, hkind⟩ | ⟨definition, hdef⟩ := resolve_cases hf hfound
      · exact .inr (.inl ⟨name, kind, rfl, rfl, hkind⟩)
      · obtain ⟨name', hc', hname, hreach, -⟩ :=
          w.resolve_node hfunction hfound (Tree.node?_of_definitionOf? hdef)
        rw [hf] at hc'
        cases hc'
        unfold Tree.definitionOf? at hdef
        split at hdef
        · cases hdef
          cases hcalls
        · rename_i hc'
          cases hdef
          rw [hc'] at hname
          cases hname
          refine .inl ⟨name, definition, rfl, rfl, ?_, _, _, _, hc'⟩
          exact h.definitions definition (w.mem_reachable hreach) (by rw [Tree.scopeOf?, hc']; rfl)
        · exact absurd ‹_› h.not_structureDef
        · cases hdef
  | _ =>
    rw [hcallee, Inquiry.calledBy?, hf] at hcalls
    cases hcalls

/-- A name that is given within a call is no name of the program's statements or of streams. -/
theorem Plain.isLocal {name : String} (hr : a.tree.Reaches id) (hh : a.tree.home id ≠ a.tree.root)
    (hn : a.tree.nameOf? id = some name) : a.IsLocal name := by
  have hmem := w.mem_reachable hr
  refine ⟨fun statement hs hname => ?_, ?_⟩
  · have hid := h.names statement hs (by rw [hname]; rfl) id hmem (by rw [hn, hname])
    exact hh (hid ▸ (topLevel_home w hs).2)
  · have hstreams := h.streams id hmem
    rwa [hn] at hstreams

end
end

end Analysis
end ReactiveLang
