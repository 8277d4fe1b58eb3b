import ReactiveLang.Proofs.Eval.Steady
import ReactiveLang.Proofs.Eval.Structureless

/-!
# Two runs side by side

Two passes of a plain program are run side by side, from scenes that a node cannot tell apart: in
the evaluation of a call the names are the same, and in the program's own those that depend on calm
sources only (`Pairing.Meets`). The first run may take values of the pass before; the second one
evaluates everything, and may need more fuel for it.

* `Evaluation.OfProgram`, `Evaluation.OfCall`: what evaluations of plain programs have.
* `Pairing.Laws`: what the two passes must have in common.
* `Matches`: the second computation comes to what the first one comes to.
-/

namespace ReactiveLang

/-! ## Evaluations of plain programs -/

namespace Evaluation

@[simp] theorem get?_start (kind : EvaluationKind) (definition : NodeId)
    (closure : Option EvaluationId) (name : String) :
    (Evaluation.start kind definition closure).get? name = none := rfl

theorem get?_bind (e : Evaluation) (name : String) (v : Value) (other : String) :
    (e.bind name v).get? other = if other = name then some v else e.get? other := by
  split
  · rename_i h
    subst h
    exact Keyed.lookup_insert_self _ _ _
  · rename_i h
    exact Keyed.lookup_insert_of_ne h _ _

variable {a : Analysis} {e e' : Evaluation} {known : StreamId → Prop}

/-- The program's own evaluation: it has names of the program's statements only, and a function under
its name. -/
structure OfProgram (a : Analysis) (e : Evaluation) : Prop where
  kind : e.kind = .program
  closure : e.closure = none
  subject : e.subject = none
  names : ∀ name v, e.get? name = some v → ∃ statement ∈ a.tree.topLevel,
    a.tree.nameOf? statement = some name ∧
      ∀ inputs output body, a.tree.construct statement = .functionDef name inputs output body →
        v = .function (.function statement .root)

theorem ofProgram_start (a : Analysis) : (Evaluation.start .program a.tree.root none).OfProgram a :=
  ⟨rfl, rfl, rfl, nofun⟩

theorem OfProgram.bind (h : e.OfProgram a) {name : String} {v : Value} {statement : NodeId}
    (hs : statement ∈ a.tree.topLevel) (hn : a.tree.nameOf? statement = some name)
    (hv : ∀ inputs output body, a.tree.construct statement = .functionDef name inputs output body →
      v = .function (.function statement .root)) : (e.bind name v).OfProgram a := by
  refine ⟨h.kind, h.closure, h.subject, fun other u hu => ?_⟩
  rw [get?_bind] at hu
  split at hu
  · rename_i heq
    cases hu
    exact ⟨statement, hs, heq ▸ hn, heq ▸ hv⟩
  · exact h.names other u hu

/-- The evaluation of a call: it sees the program's own, and has names of its own that are given to
no statement of the program. -/
structure OfCall (a : Analysis) (known : StreamId → Prop) (e : Evaluation) : Prop where
  kind : e.kind ≠ .structureDef
  closure : e.closure = some .root
  subject : ∀ v, e.subject = some v → v.Holds (Handle.Simple known)
  names : ∀ name v, e.get? name = some v → a.IsLocal name ∧ v.Holds (Handle.Simple known)

theorem OfCall.bind (h : e.OfCall a known) {name : String} {v : Value} (hn : a.IsLocal name)
    (hv : v.Holds (Handle.Simple known)) : (e.bind name v).OfCall a known := by
  refine ⟨h.kind, h.closure, h.subject, fun other u hu => ?_⟩
  rw [get?_bind] at hu
  split at hu
  · rename_i heq
    cases hu
    exact ⟨heq ▸ hn, hv⟩
  · exact h.names other u hu

theorem ofCall_start {kind : EvaluationKind} (hk : kind ≠ .structureDef) (definition : NodeId)
    {subject : Option Value} (hs : ∀ v, subject = some v → v.Holds (Handle.Simple known)) :
    { Evaluation.start kind definition (some .root) with subject }.OfCall a known :=
  ⟨hk, rfl, hs, nofun⟩

theorem OfCall.bindInputs (h : e.OfCall a known) {inputs : List NodeId} {arguments : List Value}
    (hn : ∀ input ∈ inputs, ∀ name, a.tree.nameOf? input = some name → a.IsLocal name)
    (hv : ∀ v ∈ arguments, v.Holds (Handle.Simple known)) :
    (Machine.bindInputs a.tree inputs arguments e).OfCall a known := by
  induction inputs generalizing arguments e with
  | nil => simpa [Machine.bindInputs] using h
  | cons input inputs ih =>
    cases arguments with
    | nil => simpa [Machine.bindInputs] using h
    | cons v arguments =>
      have hrest := fun other ho => hn other (List.mem_cons_of_mem input ho)
      have hvalues := fun u hu => hv u (List.mem_cons_of_mem v hu)
      unfold Machine.bindInputs
      split
      · rename_i name hname
        exact ih (h.bind (hn input (by simp) name hname) (hv v (by simp))) hrest hvalues
      · exact ih h hrest hvalues

end Evaluation

namespace Evaluations

variable {es : Evaluations} {current : EvaluationId} {e : Evaluation}

theorem chain_root (hsize : 0 < es.size) (hroot : es.find? .root = some e) (hc : e.closure = none) :
    es.chain .root = [.root] := by
  obtain ⟨n, hn⟩ := Nat.exists_eq_succ_of_ne_zero (Nat.ne_of_gt hsize)
  rw [chain, hn, chainFrom, hroot, Option.bind_some, hc]

theorem chain_call {program : Evaluation} (hne : current ≠ .root) (hlt : current.index < es.size)
    (hroot : es.find? .root = some program) (hp : program.closure = none)
    (he : es.find? current = some e) (hc : e.closure = some .root) :
    es.chain current = [current, .root] := by
  have hpos : current.index ≠ 0 := fun h => hne (congrArg EvaluationId.mk h)
  obtain ⟨n, hn⟩ : ∃ n, es.size = n + 2 := ⟨es.size - 2, by omega⟩
  rw [chain, hn, chainFrom, he, Option.bind_some, hc]
  dsimp only
  rw [chainFrom, hroot, Option.bind_some, hp]

theorem resolve_root (hsize : 0 < es.size) (hroot : es.find? .root = some e)
    (hc : e.closure = none) (name : String) : es.resolve .root name = e.get? name := by
  simp [resolve, chain_root hsize hroot hc, get?, hroot]

theorem resolve_call {program : Evaluation} (hne : current ≠ .root) (hlt : current.index < es.size)
    (hroot : es.find? .root = some program) (hp : program.closure = none)
    (he : es.find? current = some e) (hc : e.closure = some .root) (name : String) :
    es.resolve current name = (e.get? name).or (program.get? name) := by
  rw [resolve, chain_call hne hlt hroot hp he hc]
  simp only [List.findSome?_cons, List.findSome?_nil, get?, he, hroot, Option.bind_some]
  cases e.get? name <;> cases program.get? name <;> rfl

end Evaluations

namespace Analysis

/-- The name depends on calm sources only, if it is that of a statement. -/
def FairName (a : Analysis) (calm : NodeId → Prop) (name : String) : Prop :=
  ∀ statement ∈ a.tree.topLevel, a.tree.nameOf? statement = some name → a.Fair calm statement

/-- What the source says of a value that is called: a name of a function gives the function, a name
of a kind of streams that kind, and a property a method of a text. -/
structure Typed (a : Analysis) (node : NodeId) (v : Value) : Prop where
  function : ∀ name statement inputs output body, a.tree.construct node = .reference name →
    statement ∈ a.tree.topLevel →
      a.tree.construct statement = .functionDef name inputs output body →
        v = .function (.function statement .root)
  stream : ∀ name kind, a.tree.construct node = .reference name →
    StreamKind.ofName? name = some kind → v = .function (.stream kind)
  property : ∀ subject name, a.tree.construct node = .property subject name →
    ∃ method receiver, v = .function (.text method receiver)

/-- It says nothing of other nodes. -/
theorem typed_of_construct {a : Analysis} {node : NodeId} {v : Value}
    (hr : ∀ name, a.tree.construct node ≠ .reference name)
    (hp : ∀ subject name, a.tree.construct node ≠ .property subject name) : a.Typed node v :=
  ⟨fun _ _ _ _ _ h => absurd h (hr _), fun _ _ h => absurd h (hr _), fun _ _ h => absurd h (hp _ _)⟩

/-- No stream is called. -/
theorem Typed.seen {a : Analysis} {node : NodeId} {v : Value} (h : a.Typed node v) (w : World) :
    a.Typed node (w.seen v) := by
  refine ⟨fun name statement inputs output body hc hs hdef => ?_, fun name kind hc hk => ?_,
    fun subject name hc => ?_⟩
  · rw [h.function name statement inputs output body hc hs hdef]
    rfl
  · rw [h.stream name kind hc hk]
    rfl
  · obtain ⟨method, receiver, rfl⟩ := h.property subject name hc
    exact ⟨method, receiver, rfl⟩

end Analysis

namespace Direct

variable {α β γ : Type}

/-! ## Computations with fuel -/

/-- With enough fuel the computation has this result. -/
def Eventually (y : Nat → Direct α) (s : Scene) (result : Except Failure α × Scene) : Prop :=
  ∃ n, ∀ k ≥ n, (y k).runFrom s = some result

namespace Eventually

variable {y : Nat → Direct α} {s s' : Scene} {result result' : Except Failure α × Scene}

theorem of_eq {x : Direct α} (h : x.runFrom s = some result) : Eventually (fun _ => x) s result :=
  ⟨0, fun _ _ => h⟩

theorem unique (h : Eventually y s result) (h' : Eventually y s result') : result = result' := by
  obtain ⟨n, hn⟩ := h
  obtain ⟨n', hn'⟩ := h'
  exact Option.some.inj ((hn (max n n') (Nat.le_max_left _ _)).symm.trans
    (hn' (max n n') (Nat.le_max_right _ _)))

theorem exists_fuel (h : Eventually y s result) (least : Nat) :
    ∃ k ≥ least, (y k).runFrom s = some result := by
  obtain ⟨n, hn⟩ := h
  exact ⟨max n least, Nat.le_max_right _ _, hn _ (Nat.le_max_left _ _)⟩

/-- One unit of fuel more is enough as well. -/
theorem of_succ (h : Eventually (fun k => y (k + 1)) s result) : Eventually y s result := by
  obtain ⟨n, hn⟩ := h
  refine ⟨n + 1, fun k hk => ?_⟩
  obtain ⟨m, rfl⟩ : ∃ m, k = m + 1 := ⟨k - 1, by omega⟩
  exact hn m (by omega)

theorem bind {a : α} {g : Nat → α → Direct β} {last : Except Failure β × Scene}
    (h : Eventually y s (.ok a, s')) (h' : Eventually (fun k => g k a) s' last) :
    Eventually (fun k => y k >>= g k) s last := by
  obtain ⟨n, hn⟩ := h
  obtain ⟨n', hn'⟩ := h'
  refine ⟨max n n', fun k hk => ?_⟩
  rw [runFrom_bind_ok (hn k (by omega))]
  exact hn' k (by omega)

theorem bind_error {f : Failure} {g : Nat → α → Direct β} (h : Eventually y s (.error f, s')) :
    Eventually (fun k => y k >>= g k) s (.error f, s') := by
  obtain ⟨n, hn⟩ := h
  exact ⟨n, fun k hk => by rw [runFrom_bind, hn k hk]⟩

end Eventually

/-! ## Streams that last -/

/-- No stream is lost. -/
def Lasting (x : Direct α) : Prop :=
  ∀ s r s', x.runFrom s = some (r, s') → s.streams.size ≤ s'.streams.size

theorem Keeps.lasting {allowed : String → Prop} {current : EvaluationId} {x : Direct α}
    (h : Keeps allowed current x) : Lasting x :=
  fun s r s' hx => ((h s r s' hx).grown 0).size_le

theorem lasting_pure (a : α) : Lasting (pure a) :=
  fun s r s' h => by cases h; exact Nat.le_refl _

theorem Lasting.bind {x : Direct α} {f : α → Direct β} (hx : Lasting x) (hf : ∀ a, Lasting (f a)) :
    Lasting (x >>= f) := by
  intro s r s' h
  rw [runFrom_bind] at h
  split at h
  · cases h
  · cases h
    exact hx s _ _ ‹_›
  · exact Nat.le_trans (hx s _ _ ‹_›) (hf _ _ _ _ h)

theorem lasting_mapM {f : NodeId → Direct β} {nodes : List NodeId}
    (hf : ∀ node ∈ nodes, Lasting (f node)) : Lasting (nodes.mapM f) := by
  induction nodes with
  | nil => exact List.mapM_nil (m := Direct) ▸ lasting_pure []
  | cons node nodes ih =>
    rw [List.mapM_cons]
    exact (hf node (by simp)).bind fun _ => (ih fun n hn => hf n (by simp [hn])).bind fun _ =>
      lasting_pure _

section
variable {p : Program} {pass : Pass}

theorem lasting_spend : Lasting spend :=
  Keeps.lasting (keeps_spend : Keeps (fun _ => True) .root spend)

theorem lasting_decision (node : NodeId) (v : Value) : Lasting (decision p pass node v) :=
  Keeps.lasting (keeps_decision node v : Keeps (fun _ => True) .root _)

theorem lasting_resultOf (kind : EvaluationKind) (id : EvaluationId) (values : List Value) :
    Lasting (resultOf p pass kind id values) :=
  Keeps.lasting (keeps_resultOf kind id values : Keeps (fun _ => True) .root _)

theorem keeps_evaluate_all (reuse : NodeId → Option Value) (fuel depth : Nat)
    (current : EvaluationId) (node : NodeId) :
    Keeps (fun _ => True) current (evaluate p pass reuse fuel depth current node) :=
  keeps_evaluate p pass (names_all p.tree) reuse fuel depth current trivial

theorem lasting_evaluate (reuse : NodeId → Option Value) (fuel depth : Nat)
    (current : EvaluationId) (node : NodeId) :
    Lasting (evaluate p pass reuse fuel depth current node) :=
  (keeps_evaluate_all reuse fuel depth current node).lasting

theorem lasting_finish {run : EvaluationId → NodeId → Direct Value}
    (hrun : ∀ id node, Keeps (fun _ => True) id (run id node)) (depth : Nat)
    (current : EvaluationId) (node : NodeId) (operands : List Value) :
    Lasting (finish p pass run depth current node operands) :=
  Keeps.lasting (keeps_finish hrun depth (fun _ _ => trivial) operands :
    Keeps (fun _ => True) current _)

end

/-! ## Pairs of runs -/

/-- Two passes of a program, and how far they are alike. The first one may reuse values. -/
structure Pairing (p : Program) where
  left : Pass
  right : Pass
  reuse : NodeId → Option Value
  /-- Both read the same in everything, so one fails if the other one does. -/
  same : Prop
  /-- The sources that read the same in both. -/
  calm : NodeId → Prop
  known : StreamId → Prop
  /-- How many streams there may be. -/
  room : Nat → Prop
  streams : Streams → Streams → Prop
  reactions : List (NodeId × Value) → List (NodeId × Value) → Prop
  /-- What is known of the program's own evaluation in the second run. -/
  root : Evaluation → Prop
  /-- The nodes of the program's own scope that are evaluated, and the names that they give. -/
  inside : NodeId → Prop
  allowed : String → Prop

namespace Pairing

variable {p : Program} (P : Pairing p)

/-- The value means the same in both runs. -/
abbrev Simple (v : Value) : Prop := v.Holds (Handle.Simple P.known)

/-- The program's own evaluations in both runs. -/
structure Roots (e e' : Evaluation) : Prop where
  left : e.OfProgram p.analysis
  right : e'.OfProgram p.analysis
  agree : ∀ name v, p.analysis.FairName P.calm name → e.get? name = some v →
    P.Simple v ∧ e'.get? name = some v
  same : P.same → e = e'
  root : P.root e'

/-- The evaluations that run: the program's own, or those of calls that are the same. -/
inductive Alike (current current' : EvaluationId) (s s' : Scene) : Prop where
  | program (left : current = .root) (right : current' = .root)
  | call {e : Evaluation} (left : current ≠ .root) (right : current' ≠ .root)
      (begun : current.index < s.evaluations.size) (begun' : current'.index < s'.evaluations.size)
      (found : s.evaluations.find? current = some e)
      (found' : s'.evaluations.find? current' = some e)
      (ofCall : e.OfCall p.analysis P.known)

/-- The runs are at scenes that look alike from the evaluations that run. -/
structure Meets (current current' : EvaluationId) (s s' : Scene) : Prop where
  begun : 0 < s.evaluations.size
  begun' : 0 < s'.evaluations.size
  streams : P.streams s.streams s'.streams
  reactions : P.reactions s.reactions s'.reactions
  roots : ∃ e e', s.evaluations.find? .root = some e ∧ s'.evaluations.find? .root = some e' ∧
    P.Roots e e'
  alike : P.Alike current current' s s'

/-- What the two passes of a pair have in common. -/
structure Laws : Prop where
  equal : P.same → P.left = P.right
  /-- What a pass keeps or asks for is read the same by one and the same pass only. -/
  quiet : ∀ {id}, P.calm id → Machine.isPassDependent p.tree id = true → P.same
  room : ∀ {n m}, n ≤ m → P.room m → P.room n
  regular : ∀ {ss ss'}, P.streams ss ss' → ss.Regular
  seen : ∀ {ss ss' id}, P.streams ss ss' → P.known id →
    (ss'.find? id).map (·.visible P.right.number) = (ss.find? id).map (·.visible P.left.number)
  opened : ∀ {ss ss' creator} kind inputs, P.streams ss ss' → P.calm creator →
    P.room (ss.createOrReuse kind creator inputs P.left.number p.config).2.size →
      let opened := ss.createOrReuse kind creator inputs P.left.number p.config
      let opened' := ss'.createOrReuse kind creator inputs P.right.number p.config
      opened'.1 = opened.1 ∧ P.streams opened.2 opened'.2 ∧ P.known opened.1
  reacted : P.same → ∀ {rs rs'} node v, P.reactions rs rs' →
    P.reactions (Keyed.insert node v rs) (Keyed.insert node v rs')
  kept : P.same → ∀ e ∈ P.left.reactions, P.Simple e.2
  names : Names p.tree P.inside P.allowed
  gains : ∀ {e name} v, P.root e → P.allowed name → P.root (e.bind name v)
  /-- A value that is reused is what the second run comes to, and it leaves nothing else. -/
  reused : ∀ {node v}, P.reuse node = some v → P.inside node → p.tree.Reaches node →
    p.tree.home node = p.tree.root → ∀ {s s'}, P.Meets .root .root s s' →
      ∃ s1, Eventually (fun k => evaluate p P.right (fun _ => none) k 1 .root node) s' (.ok v, s1) ∧
        P.Simple v ∧ p.analysis.Typed node v ∧ P.Meets .root .root s s1

/-- The second computation comes to what the first one comes to. Where the passes differ this is said
only of values, and always only as long as there are no more streams than there may be. -/
structure Matches (x : Direct α) (y : Nat → Direct α) (s s' : Scene)
    (post : α → Scene → Scene → Prop) : Prop where
  ok : ∀ a s1, x.runFrom s = some (.ok a, s1) → P.room s1.streams.size →
    ∃ s1', Eventually y s' (.ok a, s1') ∧ post a s1 s1'
  error : P.same → ∀ f s1, x.runFrom s = some (.error f, s1) → P.room s1.streams.size →
    ∃ s1', Eventually y s' (.error f, s1') ∧ P.reactions s1.reactions s1'.reactions

namespace Matches

variable {P} {x : Direct α} {y : Nat → Direct α} {s s' : Scene} {post : α → Scene → Scene → Prop}

/-- Computations that run as others do. -/
theorem congr {x' : Direct α} {y' : Nat → Direct α} {t t' : Scene}
    (h : P.Matches x' y' t t' post) (hx : x.runFrom s = x'.runFrom t)
    (hy : ∀ k, (y k).runFrom s' = (y' k).runFrom t') : P.Matches x y s s' post := by
  have hback : ∀ {result}, Eventually y' t' result → Eventually y s' result :=
    fun ⟨n, hn⟩ => ⟨n, fun k hk => (hy k).trans (hn k hk)⟩
  constructor
  · intro a s1 hrun hroom
    obtain ⟨s1', hy, hpost⟩ := h.ok a s1 (hx ▸ hrun) hroom
    exact ⟨s1', hback hy, hpost⟩
  · intro hsame f s1 hrun hroom
    obtain ⟨s1', hy, hreactions⟩ := h.error hsame f s1 (hx ▸ hrun) hroom
    exact ⟨s1', hback hy, hreactions⟩

theorem mono {post' : α → Scene → Scene → Prop} (h : P.Matches x y s s' post)
    (himp : ∀ a s1 s1', post a s1 s1' → post' a s1 s1') : P.Matches x y s s' post' := by
  refine ⟨fun a s1 hrun hroom => ?_, h.error⟩
  obtain ⟨s1', hy, hpost⟩ := h.ok a s1 hrun hroom
  exact ⟨s1', hy, himp a s1 s1' hpost⟩

theorem pure {a : α} (h : post a s s') : P.Matches (pure a) (fun _ => Pure.pure a) s s' post := by
  refine ⟨fun b s1 hrun _ => ?_, fun _ => nofun⟩
  cases hrun
  exact ⟨s', .of_eq rfl, h⟩

theorem throw {f : Failure} (h : P.reactions s.reactions s'.reactions) :
    P.Matches (throw f) (fun _ => MonadExcept.throw f) s s' post := by
  refine ⟨nofun, fun _ g s1 hrun _ => ?_⟩
  cases hrun
  exact ⟨s', .of_eq rfl, h⟩

/-- A first computation of which it is known what it gives. -/
theorem step {a : α} {b : β} {x : Direct α} {y : Nat → Direct β} {f : α → Direct γ}
    {g : Nat → β → Direct γ} {t t' : Scene} {post : γ → Scene → Scene → Prop}
    (hx : x.runFrom s = some (.ok a, t)) (hy : ∀ k, (y k).runFrom s' = some (.ok b, t'))
    (h : P.Matches (f a) (fun k => g k b) t t' post) :
    P.Matches (x >>= f) (fun k => y k >>= g k) s s' post :=
  h.congr (runFrom_bind_ok hx f) fun k => runFrom_bind_ok (hy k) (g k)

/-- One computation after the other, where the second one loses no streams. -/
theorem bind {f : α → Direct β} {g : Nat → α → Direct β} {post' : β → Scene → Scene → Prop}
    (L : P.Laws) (h : P.Matches x y s s' post) (hlasting : ∀ a, Lasting (f a))
    (hf : ∀ a s1 s1', x.runFrom s = some (.ok a, s1) → Eventually y s' (.ok a, s1') →
      post a s1 s1' → P.Matches (f a) (fun k => g k a) s1 s1' post') :
    P.Matches (x >>= f) (fun k => y k >>= g k) s s' post' := by
  constructor
  · intro b s2 hrun hroom
    rw [runFrom_bind] at hrun
    split at hrun
    · cases hrun
    · cases hrun
    · rename_i a s1 hx
      obtain ⟨s1', hy, hpost⟩ := h.ok a s1 hx (L.room (hlasting a _ _ _ hrun) hroom)
      obtain ⟨s2', hy', hpost'⟩ := (hf a s1 s1' hx hy hpost).ok b s2 hrun hroom
      exact ⟨s2', hy.bind hy', hpost'⟩
  · intro hsame e s2 hrun hroom
    rw [runFrom_bind] at hrun
    split at hrun
    · cases hrun
    · rename_i e' s1 hx
      cases hrun
      obtain ⟨s1', hy, hreactions⟩ := h.error hsame _ _ hx hroom
      exact ⟨s1', hy.bind_error, hreactions⟩
    · rename_i a s1 hx
      obtain ⟨s1', hy, hpost⟩ := h.ok a s1 hx (L.room (hlasting a _ _ _ hrun) hroom)
      obtain ⟨s2', hy', hreactions⟩ := (hf a s1 s1' hx hy hpost).error hsame e s2 hrun hroom
      exact ⟨s2', hy.bind hy', hreactions⟩

/-- Both computations leave the other evaluations alone. -/
theorem steady {allowed allowed' : String → Prop} {current current' : EvaluationId}
    (h : P.Matches x y s s' post) (hx : Keeps allowed current x)
    (hy : ∀ k, Keeps allowed' current' (y k)) : P.Matches x y s s' fun a s1 s1' =>
      post a s1 s1' ∧ s.Steady allowed current s1 ∧ s'.Steady allowed' current' s1' := by
  refine ⟨fun a s1 hrun hroom => ?_, h.error⟩
  obtain ⟨s1', heventually, hpost⟩ := h.ok a s1 hrun hroom
  obtain ⟨k, -, hk⟩ := heventually.exists_fuel 0
  exact ⟨s1', heventually, hpost, hx s _ s1 hrun, hy k s' _ s1' hk⟩

/-- The second computation may get one unit of fuel more. -/
theorem of_succ (h : P.Matches x (fun k => y (k + 1)) s s' post) : P.Matches x y s s' post := by
  constructor
  · intro a s1 hrun hroom
    obtain ⟨s1', hy, hpost⟩ := h.ok a s1 hrun hroom
    exact ⟨s1', hy.of_succ, hpost⟩
  · intro hsame f s1 hrun hroom
    obtain ⟨s1', hy, hreactions⟩ := h.error hsame f s1 hrun hroom
    exact ⟨s1', hy.of_succ, hreactions⟩

/-- Nodes one after the other. -/
theorem mapM {f : NodeId → Direct Value} {g : Nat → NodeId → Direct Value} {nodes : List NodeId}
    {meets : Scene → Scene → Prop} {good : NodeId → Value → Prop} (L : P.Laws)
    (hlasting : ∀ node ∈ nodes, Lasting (f node))
    (hf : ∀ node ∈ nodes, ∀ s s', meets s s' → P.Matches (f node) (fun k => g k node) s s'
      fun v s1 s1' => good node v ∧ meets s1 s1') (hs : meets s s') :
    P.Matches (nodes.mapM f) (fun k => nodes.mapM (g k)) s s' fun vs s1 s1' =>
      List.Forall₂ good nodes vs ∧ meets s1 s1' := by
  induction nodes generalizing s s' with
  | nil =>
    simp only [List.mapM_nil]
    exact .pure ⟨.nil, hs⟩
  | cons node nodes ih =>
    simp only [List.mapM_cons]
    have hrest := lasting_mapM fun n hn => hlasting n (List.mem_cons_of_mem node hn)
    refine (hf node (by simp) s s' hs).bind L (fun v => hrest.bind fun _ => lasting_pure _)
      fun v s1 s1' _ _ hv => ?_
    refine (ih (fun n hn => hlasting n (by simp [hn])) (fun n hn => hf n (by simp [hn])) hv.2).bind
      L (fun _ => lasting_pure _) fun vs s2 s2' _ _ hvs => ?_
    exact .pure ⟨.cons hv.1 hvs.1, hvs.2⟩

end Matches

end Pairing
end Direct
end ReactiveLang
