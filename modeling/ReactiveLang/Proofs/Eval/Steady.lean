import Mathlib.Logic.Relation
import ReactiveLang.Proofs.Eval.Simulation

/-!
# What a computation leaves alone

A computation in an evaluation gives names to that evaluation and begins new ones. The other
evaluations stay as they are, and of the streams only the settings of those that are called may
change (`Scene.Steady`). The names are those that the nodes give that are evaluated there
(`Direct.keeps_evaluate`).
-/

namespace ReactiveLang

/-! ## What is kept -/

/-- The evaluation has got values for some of the names. -/
abbrev Evaluation.Gains (allowed : String → Prop) : Evaluation → Evaluation → Prop :=
  Relation.ReflTransGen fun e e' => ∃ name v, allowed name ∧ e' = e.bind name v

namespace Evaluation.Gains

variable {allowed : String → Prop} {e e' : Evaluation}

/-- It has no other value than before, but for those names. -/
theorem get?_cases (h : e.Gains allowed e') {name : String} {v : Value}
    (hv : e'.get? name = some v) : e.get? name = some v ∨ allowed name := by
  induction h with
  | refl => exact .inl hv
  | tail _ hbind ih =>
    obtain ⟨other, u, ho, rfl⟩ := hbind
    by_cases hn : name = other
    · exact .inr (hn ▸ ho)
    · exact ih ((Keyed.lookup_insert_of_ne hn _ _).symm.trans hv)

theorem eq_of_none (h : e.Gains (fun _ => False) e') : e' = e := by
  induction h with
  | refl => rfl
  | tail _ hbind _ =>
    obtain ⟨-, -, hf, -⟩ := hbind
    exact hf.elim

end Evaluation.Gains

/-- Nothing but the one evaluation has changed of what was there, and that has got names. -/
structure Scene.Steady (allowed : String → Prop) (current : EvaluationId) (s s' : Scene) :
    Prop where
  size : s.evaluations.size ≤ s'.evaluations.size
  others : ∀ id, id ≠ current → id.index < s.evaluations.size →
    s'.evaluations.find? id = s.evaluations.find? id
  own : ∀ e, current.index < s.evaluations.size → s.evaluations.find? current = some e →
    ∃ e', s'.evaluations.find? current = some e' ∧ e.Gains allowed e'
  grown : ∀ pass, s.streams.Extends s'.streams pass
  /-- Without a new stream, no pass can tell the streams apart. -/
  alike : s'.streams.size = s.streams.size → ∀ pass, s.streams.Alike s'.streams pass
  regular : s.streams.Regular → s'.streams.Regular

namespace Scene.Steady

variable {allowed : String → Prop} {current : EvaluationId} {s s' s'' : Scene}

theorem of_evaluations (he : s'.evaluations = s.evaluations)
    (hg : ∀ pass, s.streams.Extends s'.streams pass)
    (ha : s'.streams.size = s.streams.size → ∀ pass, s.streams.Alike s'.streams pass)
    (hr : s.streams.Regular → s'.streams.Regular) : s.Steady allowed current s' :=
  ⟨Nat.le_of_eq (congrArg Store.size he).symm, fun id _ _ => by rw [he],
    fun e _ hf => ⟨e, he ▸ hf, .refl⟩, hg, ha, hr⟩

/-- The streams and the evaluations are the same. -/
theorem of_eq (he : s'.evaluations = s.evaluations) (hs : s'.streams = s.streams) :
    s.Steady allowed current s' :=
  .of_evaluations he (fun pass => by rw [hs]; exact .refl _ pass)
    (fun _ pass => by rw [hs]; exact .refl _ pass) fun hr => hs ▸ hr

theorem refl (allowed : String → Prop) (current : EvaluationId) (s : Scene) :
    s.Steady allowed current s := .of_eq rfl rfl

theorem trans (h : s.Steady allowed current s') (h' : s'.Steady allowed current s'') :
    s.Steady allowed current s'' where
  size := Nat.le_trans h.size h'.size
  others id hne hlt :=
    (h'.others id hne (Nat.lt_of_lt_of_le hlt h.size)).trans (h.others id hne hlt)
  own e hlt he := by
    obtain ⟨e1, he1, h1⟩ := h.own e hlt he
    obtain ⟨e2, he2, h2⟩ := h'.own e1 (Nat.lt_of_lt_of_le hlt h.size) he1
    exact ⟨e2, he2, h1.trans h2⟩
  grown pass := (h.grown pass).trans (h'.grown pass)
  alike heq pass := by
    have hle := (h.grown pass).size_le
    have hle' := (h'.grown pass).size_le
    exact (h.alike (by omega) pass).trans (h'.alike (by omega) pass)
  regular hr := h'.regular (h.regular hr)

theorem bind (s : Scene) (current : EvaluationId) {name : String} (hn : allowed name) (v : Value) :
    s.Steady allowed current (s.bind current name v) where
  size := Nat.le_refl _
  others id hne _ := by
    show (Evaluations.bind s.evaluations current name v).find? id = _
    rw [Evaluations.find?_bind, if_neg hne]
  own e _ he := by
    refine ⟨e.bind name v, ?_, .single ⟨name, v, hn, rfl⟩⟩
    show (Evaluations.bind s.evaluations current name v).find? current = _
    rw [Evaluations.find?_bind, if_pos rfl, he]
    rfl
  grown pass := .refl _ pass
  alike _ pass := .refl _ pass
  regular := id

theorem createOrReuse (s : Scene) (kind : StreamKind) (creator : NodeId) (inputs : List Value)
    (pass : Nat) (config : Config) : s.Steady allowed current
      { s with streams := (s.streams.createOrReuse kind creator inputs pass config).2 } := by
  have hr := fun hr : s.streams.Regular => hr.createOrReuse kind creator inputs pass config
  obtain ⟨id, -, heq⟩ | ⟨hnone, heq⟩ :=
    s.streams.createOrReuse_cases kind creator inputs pass config
  · rw [heq] at hr ⊢
    exact .of_evaluations rfl (Streams.extends_configure _ _ _)
      (fun _ pass => Streams.Alike.configure _ _ _ _) hr
  · rw [heq] at hr ⊢
    refine .of_evaluations rfl (Streams.extends_create hnone _ _ _ _) (fun hsize => ?_) hr
    simp [Streams.size, Streams.create] at hsize

/-- What a new evaluation does is nothing to the others. -/
theorem begin {allowed' : String → Prop} {e : Evaluation}
    (h : Scene.Steady allowed ⟨s.evaluations.size⟩
      { s with evaluations := (s.evaluations.begin e).2 } s') :
    s.Steady allowed' current s' := by
  have hkept : ∀ id : EvaluationId, id.index < s.evaluations.size →
      s'.evaluations.find? id = s.evaluations.find? id := by
    intro id hlt
    have hne : id ≠ ⟨s.evaluations.size⟩ := by
      rintro rfl
      exact absurd hlt (Nat.lt_irrefl _)
    rw [h.others id hne (Nat.lt_succ_of_lt hlt)]
    show (s.evaluations.begin e).2.find? id = _
    rw [Evaluations.find?_begin, if_neg hne]
  exact ⟨Nat.le_of_succ_le h.size, fun id _ hlt => hkept id hlt,
    fun e' hlt he' => ⟨e', (hkept current hlt).trans he', .refl⟩, h.grown, h.alike, h.regular⟩

end Scene.Steady

namespace Direct

variable {α β : Type} {p : Program} {pass : Pass} {allowed : String → Prop} {current : EvaluationId}

/-! ## What computations keep -/

/-- The computation gives only names that are allowed, to one evaluation. -/
def Keeps (allowed : String → Prop) (current : EvaluationId) (x : Direct α) : Prop :=
  ∀ s r s', x.runFrom s = some (r, s') → s.Steady allowed current s'

/-- The computation changes neither evaluations nor streams. -/
theorem keeps_of_scene {x : Direct α} (h : ∀ s r s', x.runFrom s = some (r, s') →
    s'.evaluations = s.evaluations ∧ s'.streams = s.streams) : Keeps allowed current x :=
  fun s r s' hx => .of_eq (h s r s' hx).1 (h s r s' hx).2

theorem keeps_pure (a : α) : Keeps allowed current (pure a : Direct α) :=
  keeps_of_scene fun s r s' h => by cases h; exact ⟨rfl, rfl⟩

theorem keeps_throw (f : Failure) : Keeps allowed current (throw f : Direct α) :=
  keeps_of_scene fun s r s' h => by cases h; exact ⟨rfl, rfl⟩

theorem keeps_get : Keeps allowed current (get : Direct Scene) :=
  keeps_of_scene fun s r s' h => by cases h; exact ⟨rfl, rfl⟩

theorem keeps_spend : Keeps allowed current spend :=
  keeps_of_scene fun s r s' h => by cases h; exact ⟨rfl, rfl⟩

theorem Keeps.bind {x : Direct α} {f : α → Direct β} (hx : Keeps allowed current x)
    (hf : ∀ a, Keeps allowed current (f a)) : Keeps allowed current (x >>= f) := by
  intro s r s' h
  rw [runFrom_bind] at h
  split at h
  · cases h
  · cases h
    exact hx s _ _ ‹_›
  · exact (hx s _ _ ‹_›).trans (hf _ _ _ _ h)

theorem keeps_orFail (node : NodeId) (x : Except (ExceptionKind Value) α) :
    Keeps allowed current (orFail node x) := by
  cases x with
  | ok a => exact keeps_pure a
  | error kind => exact keeps_throw _

theorem keeps_mapM {f : NodeId → Direct β} {nodes : List NodeId}
    (hf : ∀ node ∈ nodes, Keeps allowed current (f node)) :
    Keeps allowed current (nodes.mapM f) := by
  induction nodes with
  | nil => exact List.mapM_nil (m := Direct) ▸ keeps_pure []
  | cons node nodes ih =>
    rw [List.mapM_cons]
    exact (hf node (by simp)).bind fun _ =>
      (ih fun n hn => hf n (by simp [hn])).bind fun _ => keeps_pure _

theorem keeps_decision (node : NodeId) (v : Value) :
    Keeps allowed current (decision p pass node v) :=
  keeps_spend.bind fun _ => keeps_get.bind fun s => by
    split
    · exact keeps_pure _
    · exact keeps_throw _

theorem keeps_resultOf (kind : EvaluationKind) (id : EvaluationId) (values : List Value) :
    Keeps allowed current (resultOf p pass kind id values) :=
  keeps_get.bind fun s => by
    split
    · exact keeps_pure _
    · exact keeps_pure _

/-- A call runs in an evaluation of its own, so it changes none that is there. -/
theorem keeps_enter {run : EvaluationId → NodeId → Direct Value}
    (hrun : ∀ id node, Keeps (fun _ => True) id (run id node)) (node : NodeId) (c : Call) :
    Keeps allowed current (enter p pass run node c) := by
  intro s r s' h
  unfold enter at h
  dsimp only at h
  split at h
  · exact keeps_throw _ _ _ _ h
  · rw [runFrom_bind_ok runFrom_get, runFrom_bind_ok (runFrom_set _)] at h
    exact .begin (((keeps_mapM fun node _ => hrun _ node).bind fun values =>
      keeps_resultOf c.kind _ values) _ _ _ h)

theorem keeps_call {run : EvaluationId → NodeId → Direct Value}
    (hrun : ∀ id node, Keeps (fun _ => True) id (run id node)) (depth : Nat) (node : NodeId)
    (c : Call) : Keeps allowed current (call p pass run depth node c) :=
  (keeps_orFail _ _).bind fun _ =>
    (keeps_of_scene fun s r s' h => by cases h; exact ⟨rfl, rfl⟩ :
      Keeps allowed current (modify fun s => s.called depth c.definition)).bind fun _ =>
        keeps_enter hrun node c

theorem keeps_finish {run : EvaluationId → NodeId → Direct Value}
    (hrun : ∀ id node, Keeps (fun _ => True) id (run id node)) (depth : Nat) {node : NodeId}
    (hnode : ∀ name, (p.tree.construct node).definedName? = some name → allowed name)
    (operands : List Value) :
    Keeps allowed current (finish p pass run depth current node operands) := by
  refine keeps_spend.bind fun _ => ?_
  intro s r s' h
  rw [runFrom_bind_ok runFrom_get, runFrom_bind] at h
  cases ho : (s.world p pass).outcome s.evaluations current node operands with
  | error kind =>
    rw [ho] at h
    exact keeps_throw _ _ _ _ h
  | ok o =>
    rw [ho] at h
    cases o with
    | keep | value =>
      cases h
      exact .refl allowed current s
    | reaction v =>
      cases h
      exact .of_eq rfl rfl
    | named name v =>
      cases h
      exact .bind s current (hnode name (World.outcome_named ho)) v
    | stream kind inputs =>
      cases h
      exact .createOrReuse s kind node inputs pass.number p.config
    | run c => exact keeps_call hrun depth node c _ _ _ h

theorem keeps_previousOf {node : NodeId}
    (hnode : ∀ name, Machine.boundName? p.tree node = some name → allowed name) :
    Keeps allowed current (previousOf p pass current node) := by
  refine keeps_spend.bind fun _ => ?_
  split
  · exact keeps_pure _
  · dsimp only
    split
    · rename_i name hname
      intro s r s' h
      cases h
      exact .bind s current (hnode name hname) _
    · exact keeps_pure _

/-- Nodes with their children in the same evaluation, and the names that they give there. -/
structure Names (t : Tree) (inside : NodeId → Prop) (allowed : String → Prop) : Prop where
  child : ∀ {node child}, inside node → t.scopeOf? node = none → child ∈ t.children node →
    inside child
  defined : ∀ {node name}, inside node → (t.construct node).definedName? = some name → allowed name
  /-- A reaction gives its value of the pass before to the name that it is bound to. -/
  bound : ∀ {node name initial condition next}, inside node →
    t.construct node = .reaction initial condition next → Machine.boundName? t node = some name →
      allowed name

theorem names_all (t : Tree) : Names t (fun _ => True) (fun _ => True) :=
  ⟨fun _ _ _ => trivial, fun _ _ => trivial, fun _ _ _ => trivial⟩

section
variable {inside : NodeId → Prop} (hnames : Names p.tree inside allowed)
include hnames

theorem keeps_operandsOf {eval : NodeId → Direct Value}
    (heval : ∀ node, inside node → Keeps allowed current (eval node)) {node : NodeId}
    (hnode : inside node) : Keeps allowed current (operandsOf p pass eval current node) := by
  have hchild : p.tree.scopeOf? node = none → ∀ child ∈ (p.tree.construct node).children,
      Keeps allowed current (eval child) := fun hs child hc =>
    heval child (hnames.child hnode hs hc)
  unfold operandsOf
  cases hc : p.tree.construct node with
  | conditional condition yes no =>
    rw [Tree.scopeOf?, hc] at hchild
    refine (hchild rfl _ (by simp [Construct.children])).bind fun v =>
      (keeps_decision node v).bind fun b => ?_
    split
    · exact (hchild rfl _ (by simp [Construct.children])).bind fun _ =>
        keeps_spend.bind fun _ => keeps_pure _
    · exact (hchild rfl _ (by simp [Construct.children])).bind fun _ => keeps_pure _
  | reaction initial condition next =>
    rw [Tree.scopeOf?, hc] at hchild
    refine (keeps_previousOf fun name hn => hnames.bound hnode hc hn).bind fun previous => ?_
    split
    · exact (hchild rfl _ (by simp [Construct.children])).bind fun _ =>
        keeps_spend.bind fun _ => keeps_pure _
    · refine (hchild rfl _ (by simp [Construct.children])).bind fun v =>
        (keeps_decision node v).bind fun b => ?_
      split
      · exact (hchild rfl _ (by simp [Construct.children])).bind fun _ => keeps_pure _
      · exact keeps_pure _
  | functionDef | structureDef | conversionDef => exact keeps_pure _
  | _ =>
    rw [Tree.scopeOf?, hc] at hchild
    exact keeps_mapM fun node hn => hchild rfl node hn

end

variable (p pass) in
/-- To evaluate a node in an evaluation changes no other one, and gives that one only names that the
nodes give which are evaluated there. -/
theorem keeps_evaluate {inside : NodeId → Prop} (hnames : Names p.tree inside allowed)
    (reuse : NodeId → Option Value) (fuel depth : Nat) (current : EvaluationId) {node : NodeId}
    (hnode : inside node) :
    Keeps allowed current (evaluate p pass reuse fuel depth current node) := by
  induction fuel generalizing allowed inside depth current node with
  | zero => exact fun s r s' h => nomatch h
  | succ fuel ih =>
    refine keeps_spend.bind fun _ => ?_
    split
    · exact keeps_pure _
    · exact (keeps_operandsOf hnames (fun node hn => ih hnames depth current hn) hnode).bind
        fun operands => keeps_finish (fun id node => ih (names_all p.tree) (depth + 1) id trivial)
          depth (fun name hn => hnames.defined hnode hn) operands

end Direct
end ReactiveLang
