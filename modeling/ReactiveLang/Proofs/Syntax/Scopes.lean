import ReactiveLang.Eval.Step
import ReactiveLang.Proofs.Eval.Rooted
import ReactiveLang.Proofs.Syntax.Walks

/-!
# Scopes

`Tree.home` is the definition whose code a node is in, or the root. Homes are nested: that of a
child is the node itself if it is a definition with a scope, and else the node's
(`WellFormed.home_child`). All code of a node has one home, as the bodies of definitions are run by
calls (`WellFormed.code_home`, `WellFormed.called_home`). What a reference resolves to in the tree
is a definition of its name in a scope around it (`WellFormed.resolve_node`).
-/

namespace ReactiveLang

/-- The definition of a scope; the root stands for the program's own. -/
def Scope.definition (t : Tree) : Scope → NodeId
  | program => t.root
  | function id | structureDef id | conversion id => id

namespace Tree

variable {t : Tree} {id child : NodeId}

/-- The definition whose code a node is in, or the root. -/
def home (t : Tree) (id : NodeId) : NodeId := (t.enclosingScope id).definition t

theorem definition_of_scopeOf? {s : Scope} (h : t.scopeOf? id = some s) : s.definition t = id := by
  unfold scopeOf? at h
  split at h
  all_goals first
    | (cases h; rfl)
    | cases h

section
variable (w : t.WellFormed)
include w

/-- The home of a child is the node itself, if that is a definition with a scope. -/
theorem WellFormed.home_child (h : t.Reaches id) (hc : child ∈ t.children id) :
    t.home child = if (t.scopeOf? id).isSome then id else t.home id := by
  rw [home, enclosingScope, w.ancestors_child h hc, List.findSome?_cons]
  cases hs : t.scopeOf? id with
  | none => rfl
  | some s => exact definition_of_scopeOf? hs

theorem WellFormed.home_root : t.home t.root = t.root := by
  rw [home, enclosingScope, w.ancestors_root]
  rfl

end

/-! ## Scopes around a node -/

/-- `outer` is the definition itself, or one around it. -/
inductive Encloses (t : Tree) (outer : NodeId) : NodeId → Prop where
  | refl : Encloses t outer outer
  | around {inner : NodeId} : Encloses t outer (t.home inner) → Encloses t outer inner

section
variable (w : t.WellFormed)
include w

theorem WellFormed.encloses_root {outer : NodeId} (h : t.Encloses outer t.root) :
    outer = t.root := by
  generalize hr : t.root = inner at h
  induction h with
  | refl => rfl
  | around _ ih =>
    subst hr
    rw [w.home_root] at ih
    exact ih rfl

theorem WellFormed.home_reaches (h : t.Reaches id) : t.Reaches (t.home id) := by
  obtain ⟨n, hn⟩ := h
  induction hn with
  | root =>
    rw [w.home_root]
    exact ⟨0, .root⟩
  | @child n parent id hp hc ih =>
    rw [w.home_child ⟨n, hp⟩ hc]
    split
    · exact ⟨n, hp⟩
    · exact ih

theorem WellFormed.encloses_reaches {outer inner : NodeId} (h : t.Encloses outer inner)
    (hr : t.Reaches inner) : t.Reaches outer := by
  induction h with
  | refl => exact hr
  | around _ ih => exact ih (w.home_reaches hr)

/-- What stands in an ancestor is in a scope around the node. -/
theorem WellFormed.encloses_ancestor (h : t.Reaches id) {ancestor : NodeId}
    (ha : ancestor ∈ t.ancestors id) (hc : child ∈ t.children ancestor) :
    t.Encloses (t.home child) (t.home id) := by
  obtain ⟨n, hn⟩ := h
  induction hn with
  | root =>
    rw [w.ancestors_root] at ha
    cases ha
  | @child n parent id hp hid ih =>
    rw [w.ancestors_child ⟨n, hp⟩ hid] at ha
    rw [w.home_child ⟨n, hp⟩ hid]
    rcases List.mem_cons.1 ha with rfl | ha
    · rw [w.home_child ⟨n, hp⟩ hc]
      exact .refl
    · split
      · exact .around (ih ha)
      · exact ih ha

end

/-- No other definition of the name stands where the reference is, where the definition is, or in
a scope between them. -/
def Clear (t : Tree) (reference definition : NodeId) : Prop :=
  ∀ other, t.Reaches other →
    (t.construct other).definedName? = (t.construct definition).definedName? →
    t.Encloses (t.home other) (t.home reference) → t.Encloses (t.home definition) (t.home other) →
    other = definition

/-- A conversion that the program declares, or a structure for its own instances. -/
def Anchored (t : Tree) (definition : NodeId) : Prop :=
  ∀ input output body, t.construct definition = .conversionDef input output body →
    t.home definition = t.root ∨
      definition ∈ t.structureStatements (t.home definition) ∧
        t.annotationType definition input = t.structureType (t.home definition)

/-! ## Homes of code -/

/-- A step between start and finish is the node's own, or one of a child's in the same scope. -/
theorem mem_innerCode {code : NodeId → List Step} {s : Step} (h : s ∈ t.innerCode code id) :
    s.node = id ∨ t.scopeOf? id = none ∧ ∃ child ∈ t.children id, s ∈ code child := by
  unfold innerCode at h
  unfold scopeOf? children
  cases hc : t.construct id with
  | conditional condition yes no =>
    simp only [hc, List.mem_append, List.mem_cons] at h
    rcases h with (h | rfl | h) | rfl | h
    · exact .inr ⟨rfl, condition, by simp [Construct.children], h⟩
    · exact .inl rfl
    · exact .inr ⟨rfl, yes, by simp [Construct.children], h⟩
    · exact .inl rfl
    · exact .inr ⟨rfl, no, by simp [Construct.children], h⟩
  | reaction initial condition next =>
    simp only [hc, List.mem_append, List.mem_cons] at h
    rcases h with ((rfl | h) | rfl | h) | rfl | h
    · exact .inl rfl
    · exact .inr ⟨rfl, initial, by simp [Construct.children], h⟩
    · exact .inl rfl
    · exact .inr ⟨rfl, condition, by simp [Construct.children], h⟩
    · exact .inl rfl
    · exact .inr ⟨rfl, next, by simp [Construct.children], h⟩
  | functionDef | structureDef | conversionDef =>
    rw [hc] at h
    cases h
  | _ =>
    rw [hc] at h
    obtain ⟨child, hm, hin⟩ := List.mem_flatMap.1 h
    exact .inr ⟨rfl, child, hm, hin⟩

section
variable (w : t.WellFormed)
include w

theorem WellFormed.codeWithin_home (h : t.Reaches id) {depth : Nat} {s : Step}
    (hs : s ∈ t.codeWithin depth id) : t.Reaches s.node ∧ t.home s.node = t.home id := by
  induction depth generalizing id with
  | zero => cases hs
  | succ depth ih =>
    have hown : s.node = id → t.Reaches s.node ∧ t.home s.node = t.home id := fun he => by
      rw [he]
      exact ⟨h, rfl⟩
    simp only [codeWithin, List.mem_append, List.mem_cons] at hs
    rcases hs with (rfl | hs) | rfl | hs
    · exact hown rfl
    · rcases mem_innerCode hs with he | ⟨hscope, child, hc, hs⟩
      · exact hown he
      · obtain ⟨hr, he⟩ := ih (h.child hc) hs
        rw [w.home_child h hc, hscope] at he
        exact ⟨hr, he⟩
    · exact hown rfl
    · cases hs

/-- All code of a node is in one scope. -/
theorem WellFormed.code_home (h : t.Reaches id) {s : Step} (hs : s ∈ t.code id) :
    t.Reaches s.node ∧ t.home s.node = t.home id := w.codeWithin_home h hs

omit w in
theorem scopeOf?_of_calledNode {definition node : NodeId} {provided : Nat}
    (h : node ∈ t.calledNodes definition provided) :
    (t.scopeOf? definition).isSome = true ∧ node ∈ t.children definition := by
  have hmem : ∀ {inputs body : List NodeId}, node ∈ (inputs.drop provided).filter t.hasDefault ++ body →
      node ∈ inputs ++ body := fun h =>
    (List.mem_append.1 h).elim
      (fun h => List.mem_append_left _ (List.mem_of_mem_drop (List.mem_filter.1 h).1))
      (List.mem_append_right _)
  unfold calledNodes inputsOf bodyOf? at h
  unfold scopeOf? children
  cases hc : t.construct definition with
  | functionDef | structureDef | conversionDef =>
    rw [hc] at h
    exact ⟨rfl, hmem h⟩
  | _ =>
    rw [hc] at h
    cases hmem h

/-- The code of a call is in the scope of the definition that is called. -/
theorem WellFormed.called_home {definition : NodeId} (h : t.Reaches definition) {provided : Nat}
    {s : Step} (hs : s ∈ t.callCode definition provided) :
    t.Reaches s.node ∧ t.home s.node = definition := by
  obtain ⟨node, hn, hs⟩ := List.mem_flatMap.1 hs
  obtain ⟨hscope, hc⟩ := scopeOf?_of_calledNode hn
  obtain ⟨hr, he⟩ := w.code_home (h.child hc) hs
  rw [w.home_child h hc, if_pos hscope] at he
  exact ⟨hr, he⟩

/-- No code of a call is in the program's own scope. -/
theorem WellFormed.called_ne_root {definition : NodeId} (h : t.Reaches definition) {provided : Nat}
    {s : Step} (hs : s ∈ t.callCode definition provided) : t.home s.node ≠ t.root := by
  rw [(w.called_home h hs).2]
  rintro rfl
  obtain ⟨node, hn, -⟩ := List.mem_flatMap.1 hs
  obtain ⟨block, hb⟩ := w.root
  have hscope := (scopeOf?_of_calledNode hn).1
  rw [scopeOf?, hb] at hscope
  cases hscope

/-! ## Members and names -/

omit w in
theorem mem_children_of_statement {block statement : NodeId} (hs : statement ∈ t.statements block) :
    statement ∈ t.children block ∧ t.scopeOf? block = none := by
  unfold statements at hs
  unfold children scopeOf?
  split at hs
  · rename_i statements hb
    rw [hb]
    exact ⟨hs, rfl⟩
  · cases hs

/-- A statement is in the scope of its block. -/
theorem WellFormed.statement_home {block statement : NodeId} (h : t.Reaches block)
    (hs : statement ∈ t.statements block) : t.home statement = t.home block := by
  obtain ⟨hc, hscope⟩ := mem_children_of_statement hs
  rw [w.home_child h hc, hscope]
  rfl

/-- A statement of a structure's body is in the scope of the structure. -/
theorem WellFormed.structureStatement_home {definition statement : NodeId}
    (h : t.Reaches definition) (hs : statement ∈ t.structureStatements definition) :
    t.home statement = definition ∧ (t.parent? statement).any t.isStructureBody = true := by
  unfold structureStatements at hs
  split at hs
  · rename_i name inputs body hc
    have hbody : body ∈ t.children definition := by
      rw [children, hc]
      exact List.mem_append_right _ (by simp)
    have hhome : t.home body = definition := by
      rw [w.home_child h hbody, scopeOf?, hc]
      rfl
    refine ⟨(w.statement_home (h.child hbody) hs).trans hhome, ?_⟩
    rw [w.parent_child _ _ (h.child hbody) (mem_children_of_statement hs).1, Option.any_some,
      isStructureBody, w.parent_child _ _ h hbody]
    simp [hc]
  · cases hs

/-- What a structure's body has as a statement is not the program's. -/
theorem WellFormed.not_isStructureBody {statement : NodeId} (h : t.Reaches statement)
    (hh : t.home statement = t.root) : (t.parent? statement).any t.isStructureBody = false := by
  refine Bool.eq_false_iff.2 fun hb => ?_
  obtain ⟨block, hp, hb⟩ := (Option.any_eq_true _ _).1 hb
  obtain ⟨hblock, hs⟩ := w.parent_reaches h hp
  rw [w.home_child hblock hs] at hh
  unfold isStructureBody at hb
  split at hb
  · cases hb
  · rename_i parent hparent
    obtain ⟨hreach, hc⟩ := w.parent_reaches hblock hparent
    split at hb
    · rename_i name inputs body hdef
      obtain rfl : body = block := of_decide_eq_true hb
      split at hh
      · rw [hh, w.parent_root] at hparent
        cases hparent
      · rw [w.home_child hreach hc, scopeOf?, hdef] at hh
        obtain ⟨program, hroot⟩ := w.root
        rw [← hh] at hroot
        cases hdef.symm.trans hroot
    · cases hb

/-- The members of a structure are in its scope. -/
theorem WellFormed.member_home {definition member : NodeId} (h : t.Reaches definition)
    {name : String} (hm : t.structureMember? definition name = some member) :
    t.home member = definition := by
  unfold structureMember? at hm
  split at hm
  · rename_i inputs body hc
    have hchild : ∀ node ∈ t.children definition, t.home node = definition := fun node hn => by
      rw [w.home_child h hn, scopeOf?, hc]
      rfl
    rcases Option.or_eq_some_iff.1 hm with hm | ⟨-, hm⟩
    · refine hchild member ?_
      rw [children, hc]
      exact List.mem_append_left _ (List.mem_of_find?_eq_some hm)
    · have hs := List.mem_of_find?_eq_some hm
      rw [structureStatements, hc] at hs
      cases body with
      | none => cases hs
      | some block =>
        have hblock : block ∈ t.children definition := by
          rw [children, hc]
          exact List.mem_append_right _ (by simp)
        rw [w.statement_home (h.child hblock) hs, hchild block hblock]
  · cases hm

omit w in
theorem scopeOf?_of_isBinding (h : t.isBinding id = true) : t.scopeOf? id = none := by
  unfold isBinding at h
  unfold scopeOf?
  split at h
  · rename_i hc
    rw [hc]
  · cases h

/-- The inputs of a definition are in its scope. -/
theorem WellFormed.input_home {definition input : NodeId} (h : t.Reaches definition)
    (hi : input ∈ t.inputsOf definition) : t.home input = definition := by
  have hchild : input ∈ t.children definition ∧ (t.scopeOf? definition).isSome = true := by
    unfold inputsOf at hi
    unfold children scopeOf?
    split at hi
    · rename_i hc
      rw [hc]
      exact ⟨List.mem_append_left _ hi, rfl⟩
    · rename_i hc
      rw [hc]
      exact ⟨List.mem_append_left _ hi, rfl⟩
    · cases hi
  rw [w.home_child h hchild.1, if_pos hchild.2]

omit w in
theorem node?_of_definitionOf? {found : Definition} (h : t.definitionOf? id = some found) :
    found.node? = some id := by
  unfold definitionOf? at h
  split at h
  all_goals first
    | (cases h; rfl)
    | cases h

/-- What a name stands for in the tree is a definition of that name in a scope around it. -/
theorem WellFormed.resolve_node {reference node : NodeId} {found : Definition}
    (h : t.Reaches reference) (hr : t.resolve reference = some found)
    (hn : found.node? = some node) :
    ∃ name, t.construct reference = .reference name ∧
      (t.construct node).definedName? = some name ∧ t.Reaches node ∧
        t.Encloses (t.home node) (t.home reference) := by
  unfold resolve at hr
  split at hr
  · rename_i name hc
    refine ⟨name, hc, ?_⟩
    have hdefined : ∀ {ids : List NodeId}, (t.findNamed ids name).bind t.definitionOf? = some found →
        (t.construct node).definedName? = some name ∧ node ∈ ids := by
      intro ids hb
      obtain ⟨id, hf, hd⟩ := Option.bind_eq_some_iff.1 hb
      rw [node?_of_definitionOf? hd] at hn
      cases hn
      exact ⟨by simpa using List.find?_some hf, List.mem_of_find?_eq_some hf⟩
    rcases Option.or_eq_some_iff.1 hr with hr | ⟨-, hr⟩
    · obtain ⟨ancestor, ha, hi⟩ := List.exists_of_findSome?_eq_some hr
      have hchild : node ∈ t.children ancestor → t.Reaches node ∧
          t.Encloses (t.home node) (t.home reference) := fun hc =>
        ⟨(w.ancestorsFrom_reaches h _ ha).child hc, w.encloses_ancestor h ha hc⟩
      unfold introduced? at hi
      split at hi
      · rename_i hc
        obtain ⟨hname, hmem⟩ := hdefined hi
        exact ⟨hname, hchild (by rw [children, hc]; exact List.mem_append_left _ hmem)⟩
      · rename_i hc
        obtain ⟨hname, hmem⟩ := hdefined hi
        exact ⟨hname, hchild (by rw [children, hc]; exact List.mem_append_left _ hmem)⟩
      · rename_i hc
        obtain ⟨hname, hmem⟩ := hdefined hi
        exact ⟨hname, hchild (by rw [children, hc]; exact hmem)⟩
      · cases hi
    · obtain ⟨kind, -, rfl⟩ := Option.map_eq_some_iff.1 hr
      cases hn
  · cases hr

end

end Tree
end ReactiveLang
