import ReactiveLang.Proofs.Eval.Pairing
import ReactiveLang.Proofs.Syntax.Walks

/-!
# Statements of a plain program

The program evaluates its statements one after the other. What it evaluates in its own evaluation is
the program, its block, or what it comes to when it evaluates a statement after those before it
(`Visits.cases`). A statement of a plain program gives no name but its own, and what is beneath it
gives one only where a reaction has a value of the pass before (`names_within`, `names_beneath`).

* `Analysis.Within`: a node is evaluated for a statement, in the program's own evaluation.
* `Analysis.Rebinds`: a reaction within a statement may bind a name before the statement does.
-/

namespace ReactiveLang

namespace Analysis

/-- The node is that statement or beneath it, in the program's own scope. -/
structure Within (a : Analysis) (statement node : NodeId) : Prop where
  above : a.tree.Above statement node
  reaches : a.tree.Reaches node
  home : a.tree.home node = a.tree.root

/-- A reaction within the statement gives its value of the pass before to the name. -/
def Rebinds (a : Analysis) (statement : NodeId) (name : String) : Prop :=
  ∃ node initial condition next, a.Within statement node ∧
    a.tree.construct node = .reaction initial condition next ∧
      Machine.boundName? a.tree node = some name

section
variable {a : Analysis} {statement node other : NodeId} {name : String}

theorem mem_children_programBlock (hs : statement ∈ a.tree.topLevel) :
    statement ∈ a.tree.children a.tree.programBlock :=
  (Tree.mem_children_of_statement hs).1

variable (w : a.tree.WellFormed)
include w

theorem within_self (hs : statement ∈ a.tree.topLevel) : a.Within statement statement :=
  ⟨.refl, (topLevel_home w hs).1, (topLevel_home w hs).2⟩

theorem Within.child (h : a.Within statement node) (hs : a.tree.scopeOf? node = none)
    (hc : other ∈ a.tree.children node) : a.Within statement other := by
  refine ⟨h.above.child hc, h.reaches.child hc, ?_⟩
  rw [w.home_child h.reaches hc, if_neg (by simp [hs])]
  exact h.home

/-- No node is within two statements. -/
theorem Within.unique (h : a.Within statement node) (h' : a.Within other node)
    (hs : statement ∈ a.tree.topLevel) (ho : other ∈ a.tree.topLevel) : statement = other :=
  w.above_unique (reaches_programBlock w).1 (mem_children_programBlock hs)
    (mem_children_programBlock ho) h.above h'.above

/-- A child is not the statement itself. -/
theorem Within.child_ne (h : a.Within statement node) (hc : other ∈ a.tree.children node) :
    other ≠ statement := by
  rintro rfl
  exact w.not_above_parent h.reaches hc h.above

variable (h : a.Plain)
include h

/-- Within a statement only the statement itself gives a name. -/
theorem Within.defined (hw : a.Within statement node) (hs : statement ∈ a.tree.topLevel)
    (hn : a.tree.nameOf? node = some name) : node = statement := by
  have hmem := w.mem_reachable hw.reaches
  have htop : node ∈ a.tree.topLevel := by
    unfold Tree.nameOf? at hn
    cases hc : a.tree.construct node with
    | binding => exact h.bindings node hmem (by rw [Tree.isBinding, hc]) hw.home
    | functionDef | structureDef =>
      exact h.definitions node hmem (by rw [Tree.scopeOf?, hc]; rfl)
    | _ =>
      rw [hc] at hn
      cases hn
  exact ((within_self w htop).unique w hw htop hs)

/-- The binding around a reaction within a statement is the statement. -/
theorem Within.bound (hw : a.Within statement node) (hs : statement ∈ a.tree.topLevel)
    (hn : Machine.boundName? a.tree node = some name) :
    (∃ type value, a.tree.construct statement = .binding name type value) ∧
      node ∈ a.tree.children statement := by
  unfold Machine.boundName? at hn
  split at hn
  · rename_i other type value hparent
    cases hn
    obtain ⟨parent, hp, hb⟩ := Option.map_eq_some_iff.1 hparent
    obtain ⟨hr, hc⟩ := w.parent_reaches hw.reaches hp
    have hscope : a.tree.scopeOf? parent = none := by rw [Tree.scopeOf?, hb]
    have hhome : a.tree.home parent = a.tree.root := by
      have hchild := w.home_child hr hc
      rw [if_neg (by simp [hscope])] at hchild
      rw [← hchild, hw.home]
    have htop : parent ∈ a.tree.topLevel :=
      h.bindings parent (w.mem_reachable hr) (by rw [Tree.isBinding, hb]) hhome
    have hsame : parent = statement :=
      ((within_self w htop).child w hscope hc).unique w hw htop hs
    exact ⟨⟨type, value, hsame ▸ hb⟩, hsame ▸ hc⟩
  · cases hn

end

variable {a : Analysis} {statement node : NodeId} {name : String}

open Direct (Names)

/-- A statement gives only its own name. -/
theorem names_within (w : a.tree.WellFormed) (h : a.Plain) (hs : statement ∈ a.tree.topLevel) :
    Names a.tree (a.Within statement) (fun name => a.tree.nameOf? statement = some name) where
  child := fun hw hscope hc => hw.child w hscope hc
  defined := fun hw hn => hw.defined w h hs hn ▸ hn
  bound := fun hw _ hn => by
    obtain ⟨⟨type, value, hb⟩, -⟩ := hw.bound w h hs hn
    exact congrArg Construct.definedName? hb

/-- What is beneath a statement gives only names of reactions. -/
theorem names_beneath (w : a.tree.WellFormed) (h : a.Plain) (hs : statement ∈ a.tree.topLevel) :
    Names a.tree (fun node => a.Within statement node ∧ node ≠ statement)
      (a.Rebinds statement) where
  child := fun hw hscope hc => ⟨hw.1.child w hscope hc, hw.1.child_ne w hc⟩
  defined := fun hw hn => absurd (hw.1.defined w h hs hn) hw.2
  bound := fun hw hc hn => ⟨_, _, _, _, hw.1, hc, hn⟩

/-- What is beneath a node whose value may be used again gives no names. -/
theorem names_memoizable (w : a.tree.WellFormed) (h : a.Plain) (hs : statement ∈ a.tree.topLevel)
    (hw : a.Within statement node) (hm : a.isMemoizable node = true) :
    Names a.tree (fun other => a.Within statement other ∧ a.tree.Above node other)
      (fun _ => False) := by
  unfold isMemoizable at hm
  simp only [Bool.and_eq_true, Bool.not_eq_true', List.any_eq_false] at hm
  obtain ⟨⟨⟨⟨hdefinition, -⟩, -⟩, -⟩, hbound⟩ := hm
  have hfree : ∀ {other}, a.tree.Above node other → a.tree.construct other ≠ .nothing →
      a.isPassBound other ≠ true := fun ha hc =>
    hbound _ ((Tree.mem_descendants_iff (index_lt_of_construct hc)).2 ha)
  refine ⟨fun ho hscope hc => ⟨ho.1.child w hscope hc, ho.2.child hc⟩, fun {other name} ho hn => ?_,
    fun ho hc _ => hfree ho.2 (by rw [hc]; nofun) (by rw [isPassBound, hc])⟩
  -- only the statement gives a name, and the node is none of those that do
  obtain rfl := ho.1.defined w h hs hn
  obtain hblock := (reaches_programBlock w).1
  have hchild := mem_children_programBlock hs
  obtain rfl | hblock' := (w.above_child hw.reaches hblock hchild).1 ho.2
  · cases hc : a.tree.construct node with
    | binding | functionDef | structureDef =>
      rw [hc] at hdefinition
      cases hdefinition
    | _ =>
      rw [hc] at hn
      cases hn
  · exact w.not_above_parent hblock hchild (hw.above.trans hblock')

/-- The name of a reaction does not depend on calm sources only, where no reaction is calm. -/
theorem Rebinds.not_fair (w : a.tree.WellFormed) (h : a.Plain) (hs : statement ∈ a.tree.topLevel)
    {calm : NodeId → Prop} (hcalm : ∀ id, calm id → Machine.isPassDependent a.tree id = false)
    (hr : a.Rebinds statement name) : ¬ a.FairName calm name := by
  obtain ⟨node, initial, condition, next, hw, hc, hn⟩ := hr
  obtain ⟨⟨type, value, hb⟩, hchild⟩ := hw.bound w h hs hn
  intro hfair
  have hstatement := hfair statement hs (congrArg Construct.definedName? hb)
  have hdependent := hcalm node ((hstatement.child hchild).source (.reaction hc))
  rw [Machine.isPassDependent, hc] at hdependent
  cases hdependent

end Analysis

/-- Before the first statement, in the program's own evaluation. -/
def Scene.entered (p : Program) (streams : Streams) : Scene := (Scene.start p streams).spent.spent

theorem Scene.find?_entered (p : Program) (streams : Streams) :
    (Scene.entered p streams).evaluations.find? .root =
      some (.start .program p.tree.root none) := by
  show (Evaluations.begin .empty (.start .program p.tree.root none)).2.find? .root = _
  rw [Evaluations.find?_begin]
  rfl

namespace Direct

open Analysis

variable {p : Program} {pass : Pass} {reuse : NodeId → Option Value} {streams : Streams}

/-- To come to a child changes what the nodes before it and a condition change. -/
theorem Before.steady {eval : NodeId → Direct Value} {current : EvaluationId} {node child : NodeId}
    {s s' : Scene} {allowed : String → Prop} (h : Before p pass eval current node s child s')
    (heval : ∀ child ∈ p.tree.children node, Keeps allowed current (eval child))
    (hbound : ∀ initial condition next, p.tree.construct node = .reaction initial condition next →
      ∀ name, Machine.boundName? p.tree node = some name → allowed name) :
    s.Steady allowed current s' := by
  have hmem : ∀ {child}, child ∈ (p.tree.construct node).children →
      Keeps allowed current (eval child) := fun hc => heval _ hc
  cases h with
  | condition hnode => exact .refl allowed current s
  | choice hnode hv hb =>
    exact (hmem (by simp [hnode, Construct.children]) _ _ _ hv).trans
      (keeps_decision node _ _ _ _ hb)
  | initial hnode hp | again hnode hp =>
    exact keeps_previousOf (hbound _ _ _ hnode) _ _ _ hp
  | next hnode hp hv hb =>
    exact (keeps_previousOf (hbound _ _ _ hnode) _ _ _ hp).trans
      ((hmem (by simp [hnode, Construct.children]) _ _ _ hv).trans (keeps_decision node _ _ _ _ hb))
  | part _ hsplit hvs =>
    exact keeps_mapM (fun node hn => heval node (by rw [hsplit]; simp [hn])) _ _ _ hvs

variable (p pass reuse streams) in
/-- The statement is next, when those before it have been evaluated. -/
def Follows (statement : NodeId) (s : Scene) : Prop :=
  ∃ before later fuel vs, p.tree.topLevel = before ++ statement :: later ∧
    (before.mapM (evaluate p pass reuse fuel 1 .root)).runFrom (.entered p streams) = some (.ok vs, s)

variable (p pass reuse) in
/-- To evaluate a statement from `s0` comes to a node in the program's own evaluation. -/
inductive Descends (statement : NodeId) (s0 : Scene) : NodeId → Scene → Prop where
  | here : Descends statement s0 statement s0
  | child {fuel : Nat} {node child : NodeId} {s s' : Scene} :
      Descends statement s0 node s → reuse node = none →
      Before p pass (evaluate p pass reuse fuel 1 .root) .root node s.spent child s' →
      Descends statement s0 child s'

/-- What the program evaluates besides itself and its block is evaluated for a statement. -/
theorem Visits.cases (w : p.tree.WellFormed) (h : p.analysis.Plain) {node : NodeId} {s : Scene}
    (hv : Visits p pass reuse streams node s) :
    (node = p.tree.root ∧ s = .start p streams) ∨
      (node = p.tree.programBlock ∧ s = (Scene.start p streams).spent) ∨
        ∃ statement s0, Follows p pass reuse streams statement s0 ∧
          Descends p pass reuse statement s0 node s := by
  induction hv with
  | program => exact .inl ⟨rfl, rfl⟩
  | @child fuel node child s s' _ hnone hbefore ih =>
    obtain ⟨rfl, rfl⟩ | ⟨rfl, rfl⟩ | ⟨statement, s0, hfollows, hdescends⟩ := ih
    · obtain ⟨block, hb⟩ := w.root
      obtain ⟨-, hchildren⟩ := reaches_programBlock (a := p.analysis) w
      cases hbefore with
      | condition hnode | choice hnode | initial hnode | again hnode | next hnode =>
        cases hb.symm.trans hnode
      | @part before later _ vs _ _ hsplit hvs =>
        have hfirst : before ++ child :: later = [p.tree.programBlock] :=
          hsplit.symm.trans hchildren
        obtain ⟨rfl, hone⟩ | ⟨-, hnone⟩ := List.append_eq_singleton_iff.1 hfirst
        · cases hone
          cases hvs
          exact .inr (.inl ⟨rfl, rfl⟩)
        · cases hnone
    · have hblock : p.tree.construct p.tree.programBlock = .block p.tree.topLevel :=
        construct_programBlock h
      cases hbefore with
      | condition hnode | choice hnode | initial hnode | again hnode | next hnode =>
        cases hblock.symm.trans hnode
      | @part before later _ vs _ _ hsplit hvs =>
        rw [Tree.children, hblock] at hsplit
        exact .inr (.inr ⟨child, s', ⟨before, later, fuel, vs, hsplit, hvs⟩, .here⟩)
    · exact .inr (.inr ⟨statement, s0, hfollows, hdescends.child hnone hbefore⟩)

section
variable (w : p.tree.WellFormed) {statement node : NodeId} {s0 s : Scene}
  (hs : statement ∈ p.tree.topLevel) (hd : Descends p pass reuse statement s0 node s)
include w hs hd

theorem Descends.within : p.analysis.Within statement node := by
  induction hd with
  | here => exact within_self w hs
  | child _ _ hbefore ih => exact ih.child w hbefore.scopeOf?_eq_none hbefore.mem

/-- Until then no name was given but those of reactions. -/
theorem Descends.steady (h : p.analysis.Plain) :
    s0.Steady (p.analysis.Rebinds statement) .root s := by
  induction hd with
  | here => exact .refl _ _ s0
  | @child fuel node child s s' hd _ hbefore ih =>
    have hw := hd.within w hs
    have hspent : s.Steady (p.analysis.Rebinds statement) .root s.spent := .of_eq rfl rfl
    refine (ih.trans hspent).trans (hbefore.steady (fun other ho => ?_) ?_)
    · exact keeps_evaluate p pass (names_beneath w h hs) reuse fuel 1 .root
        ⟨hw.child w hbefore.scopeOf?_eq_none ho, hw.child_ne w ho⟩
    · exact fun _ _ _ hc name hn => ⟨_, _, _, _, hw, hc, hn⟩

end

end Direct
end ReactiveLang
