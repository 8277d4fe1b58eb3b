import ReactiveLang.Proofs.Eval.Heights
import ReactiveLang.Proofs.Eval.Keeping
import ReactiveLang.Proofs.Eval.Simulation

/-!
# What a step does to the frames

`execute_cases`: a step moves the frame that runs, as `Tree.Moves` says, or it puts a new frame on
top of it for a call; the frames below stay. `settle_of_done`: a frame that is done is left, and its
caller gets one value.
-/

namespace ReactiveLang

/-- The frame so many steps on, with these values in place of the newest ones. -/
def Frame.moved (f : Frame) (skip takes : Nat) (values : List Value) : Frame :=
  { f with position := f.position + skip, values := values ++ f.values.drop takes }

/-! ## What a call begins with -/

namespace Call

variable (t : Tree) (c : Call)

/-- The inputs that arguments are bound to; a conversion has none. -/
def inputs : List NodeId := if c.kind = .conversion then [] else t.inputsOf c.definition

/-- The number of inputs that are given. -/
def provided : Nat := min c.arguments.length (c.inputs t).length

/-- The evaluation that a call begins. -/
def evaluation : Evaluation :=
  Machine.bindInputs t (c.inputs t) c.arguments
    { Evaluation.start c.kind c.definition (some c.closure) with subject := c.subject }

/-- The frame of a call that runs in an evaluation. -/
def frame (p : Program) (id : EvaluationId) : Frame :=
  ⟨c.kind, p.code.ofCall c.definition (c.provided p.tree), 0, [], id⟩

theorem evaluation_definition : (c.evaluation t).definition = c.definition :=
  (Machine.bindInputs_fields _ _ _ _).1

/-- The frame runs the code of what is called. -/
theorem frame_steps {p : Program} (hcode : p.code = Code.ofTree p.tree) (id : EvaluationId) :
    (c.frame p id).steps.toList =
      (p.tree.calledNodes c.definition (c.provided p.tree)).flatMap p.tree.code := by
  rw [frame, hcode, Code.ofCall_ofTree]
  rfl

end Call

/-! ## Steps -/

namespace Machine

variable {m m' : Machine} {w : World} {streams : Streams} {f : Frame} {below : List Frame}
  {es : Evaluations}

/-- The machine has these frames and evaluations. -/
structure Has (frames : List Frame) (es : Evaluations) (m : Machine) : Prop where
  frames : m.frames = frames
  evaluations : m.evaluations = es

theorem Has.withFrame (h : m.Has (f :: below) es) (change : Frame → Frame) :
    (m.withFrame change).Has (change f :: below) es := by
  unfold Machine.withFrame
  rw [h.frames]
  exact ⟨rfl, h.evaluations⟩

theorem Has.skip (h : m.Has (f :: below) es) (count : Nat) :
    (m.skip count).Has (f.skip count :: below) es := h.withFrame fun f => f.skip count

theorem Has.push (h : m.Has (f :: below) es) (v : Value) :
    (m.push v).Has (f.push v :: below) es := h.withFrame fun f => f.push v

theorem Has.pop (h : m.Has (f :: below) es) (count : Nat) :
    (m.pop count).1 = (f.pop count).1 ∧ (m.pop count).2.Has ((f.pop count).2 :: below) es := by
  unfold Machine.pop
  rw [h.frames]
  exact ⟨rfl, rfl, h.evaluations⟩

theorem Has.bind (h : m.Has (f :: below) es) (name : String) (v : Value) :
    (m.bind name v).Has (f :: below) (Evaluations.bind es f.evaluation name v) := by
  refine ⟨h.frames, ?_⟩
  rw [← h.evaluations]
  unfold Machine.bind Machine.current
  rw [h.frames]
  rfl

theorem Has.withMemo {frames : List Frame} (h : m.Has frames es) (memo : List (NodeId × Value)) :
    ({ m with memo } : Machine).Has frames es := ⟨h.frames, h.evaluations⟩

theorem Has.remember {frames : List Frame} (h : m.Has frames es) (node : NodeId) :
    (m.remember w node).Has frames es := by
  obtain ⟨memo, hm⟩ := m.remember_eq w node
  rw [hm]
  exact h.withMemo memo

theorem Has.advanced (h : m.Has (f :: below) es) : m.advanced.Has (f.skip 1 :: below) es :=
  Has.skip (m := { m with index := m.index + 1, status := .running }) ⟨h.frames, h.evaluations⟩ 1

/-- A node that ends does so by its outcome on the values of the frame that runs; that it may be
remembered changes neither frames nor evaluations. -/
theorem Has.execute_finish (h : m.Has (f :: below) es) {node : NodeId}
    (he : m.advanced.execute w (.finish node) = .ok (m', streams)) :
    ∃ o m1, w.outcome es f.evaluation node (f.pop (w.tree.construct node).operandCount).1 = .ok o ∧
      (m.advanced.pop (w.tree.construct node).operandCount).2.perform w node o =
        .ok (m1, streams) ∧
      ∀ {frames es'}, m1.Has frames es' → m'.Has frames es' := by
  have ha := h.advanced
  have hcurrent : m.advanced.current = f.evaluation := (current_eq ha.frames).trans rfl
  cases executes he with
  | @finish _ o m1 _ outcome performed =>
    rw [ha.evaluations, hcurrent, (ha.pop _).1] at outcome
    refine ⟨o, m1, outcome, performed, fun hm => ?_⟩
    split
    · exact hm.remember node
    · exact hm

/-- The evaluations, perhaps with one name more in that of a frame. -/
def Named (es : Evaluations) (f : Frame) (es' : Evaluations) : Prop :=
  es' = es ∨ ∃ name v, es' = Evaluations.bind es f.evaluation name v

/-- The step moves the frame that runs. -/
def MovesFrame (t : Tree) (s : Step) (f : Frame) (below : List Frame) (es : Evaluations)
    (m' : Machine) : Prop :=
  ∃ skip takes values es', t.Moves s skip takes values.length ∧
    m'.Has (f.moved skip takes values :: below) es' ∧ Named es f es'

/-- The finish of a node begins a call. -/
def BeginsCall (w : World) (s : Step) (f : Frame) (below : List Frame) (es : Evaluations)
    (m' : Machine) : Prop :=
  ∃ node call, s = .finish node ∧ w.tree.Moves s 1 (w.tree.construct node).operandCount 1 ∧
    w.outcome es f.evaluation node (f.pop (w.tree.construct node).operandCount).1 =
      .ok (.run call) ∧
    m'.Has (call.frame w.program (es.begin (call.evaluation w.tree)).1 ::
        f.moved 1 (w.tree.construct node).operandCount [] :: below)
      (es.begin (call.evaluation w.tree)).2

section
variable (h : m.Has (f :: below) es)
include h

/-- A node is started, or a value of the pass before takes the place of its code. -/
theorem Has.startNode_cases
    (hlen : ∀ node, w.program.code.length node = (w.tree.code node).length)
    (hpos : ∀ node, 0 < (w.tree.code node).length) (node : NodeId) :
    ((m.advanced.inProgram = true → memoized? w node = none) ∧
        (m.advanced.startNode w node).Has (f.moved 1 0 [] :: below) es) ∨
      ∃ v, m.advanced.inProgram = true ∧ memoized? w node = some v ∧
        (m.advanced.startNode w node).Has (f.moved (w.tree.code node).length 0 [v] :: below) es := by
  have ha := h.advanced
  obtain ⟨hstart, hnone⟩ | ⟨v, hin, hv, hstart⟩ :=
    Machine.startNode_cases m.advanced w node <;> rw [hstart]
  · exact .inl ⟨hnone, ha⟩
  · refine .inr ⟨v, hin, hv, ?_⟩
    have hs := ((ha.skip (w.program.code.length node - 1)).withMemo
      (Keyed.insert node v (m.advanced.skip (w.program.code.length node - 1)).memo)).push v
    have heq : ((f.skip 1).skip (w.program.code.length node - 1)).push v =
        f.moved (w.tree.code node).length 0 [v] := by
      have := hpos node
      simp only [Frame.skip, Frame.push, Frame.moved, hlen, List.drop_zero, List.singleton_append]
      congr 1
      omega
    rwa [heq] at hs

theorem Has.startNode (hlen : ∀ node, w.program.code.length node = (w.tree.code node).length)
    (hpos : ∀ node, 0 < (w.tree.code node).length) (node : NodeId) :
    MovesFrame w.tree (.start node) f below es (m.advanced.startNode w node) := by
  obtain ⟨-, hnext⟩ | ⟨v, -, -, hreuse⟩ := h.startNode_cases hlen hpos node
  · exact ⟨1, 0, [], es, .start node, hnext, .inl rfl⟩
  · exact ⟨_, 0, [v], es, .reuse node, hreuse, .inl rfl⟩

theorem Has.checkReaction (hlen : ∀ node, w.program.code.length node = (w.tree.code node).length)
    (node : NodeId) :
    MovesFrame w.tree (.check node) f below es (m.advanced.checkReaction w node) := by
  have ha := h.advanced
  obtain hcheck | ⟨previous, m1, -, hm1, hcheck⟩ := m.advanced.checkReaction_cases w node
  · rw [hcheck]
    exact ⟨1, 0, [], es, .check node, ha, .inl rfl⟩
  obtain ⟨es', h1, hn⟩ : ∃ es', m1.Has (f.skip 1 :: below) es' ∧ Named es f es' := by
    obtain rfl | ⟨name, -, rfl⟩ := hm1
    · exact ⟨es, ha, .inl rfl⟩
    · exact ⟨_, ha.bind name previous, .inr ⟨name, previous, rfl⟩⟩
  obtain hcheck | ⟨initial, condition, next, hnode, hcheck⟩ := hcheck
  · rw [hcheck]
    exact ⟨1, 0, [], es', .check node, h1, hn⟩
  · rw [hcheck]
    refine ⟨_, 0, [], es', .recheck hnode, ?_, hn⟩
    have hs := h1.skip (w.program.code.length initial + 1)
    have heq : (f.skip 1).skip (w.program.code.length initial + 1) =
        f.moved (1 + ((w.tree.code initial).length + 1)) 0 [] := by
      simp [Frame.skip, Frame.moved, hlen, Nat.add_assoc]
    rwa [heq] at hs

/-- A choice goes on or jumps, as the boolean that it takes says. -/
theorem Has.branch_cases {node : NodeId} {count : Nat} {when : Bool}
    (hb : m.advanced.branch w node count when = .ok m') :
    ∃ b, w.seen (World.operand (f.pop 1).1 0) = .boolean b ∧
      (b ≠ when ∧ m'.Has (f.moved 1 1 [] :: below) es ∨
        b = when ∧ ∃ left, left.length = (if isReaction w.tree node then 1 else 0) ∧
          m'.Has (f.moved (1 + count) 1 left :: below) es) := by
  obtain ⟨hvalues, hpop⟩ := h.advanced.pop 1
  have hskip := hpop.skip count
  obtain ⟨b, hseen, hcase⟩ := Machine.branch_cases hb
  rw [hvalues] at hseen
  refine ⟨b, hseen, ?_⟩
  obtain ⟨hne, rfl⟩ | ⟨heq, hr, rfl⟩ | ⟨heq, hr, rfl⟩ := hcase
  · exact .inl ⟨hne, hpop⟩
  · refine .inr ⟨heq, [], by rw [hr]; rfl, ?_⟩
    simpa [Frame.skip, Frame.pop, Frame.moved, Nat.add_assoc] using hskip
  · refine .inr ⟨heq, [(w.pass.reactions.lookup node).getD .nothing], by rw [if_pos hr]; rfl, ?_⟩
    have hpush := hskip.push ((w.pass.reactions.lookup node).getD .nothing)
    simpa [Frame.skip, Frame.push, Frame.pop, Frame.moved, Nat.add_assoc] using hpush

theorem Has.branch {node : NodeId} {count : Nat} {when : Bool}
    (hb : m.advanced.branch w node count when = .ok m') :
    MovesFrame w.tree (.jumpIf node count when) f below es m' := by
  obtain ⟨b, -, ⟨-, hm⟩ | ⟨-, left, hleft, hm⟩⟩ := h.branch_cases hb
  · exact ⟨1, 1, [], es, .stay node count when, hm, .inl rfl⟩
  · exact ⟨_, 1, left, es, hleft ▸ .branch node count when, hm, .inl rfl⟩

/-- What is performed with a value takes the operands of the node and leaves the value. -/
theorem Has.perform {node : NodeId} {o : Outcome}
    (ho : w.outcome es f.evaluation node (f.pop (w.tree.construct node).operandCount).1 = .ok o)
    (hp : (m.advanced.pop (w.tree.construct node).operandCount).2.perform w node o =
      .ok (m', streams)) :
    MovesFrame w.tree (.finish node) f below es m' ∨
      BeginsCall w (.finish node) f below es m' := by
  have hpop := (h.advanced.pop (w.tree.construct node).operandCount).2
  by_cases hkeep : o = .keep
  · subst hkeep
    cases hp
    have hc := World.outcome_keep ho
    have hzero : (w.tree.construct node).operandCount = 0 := by
      obtain ⟨block, hb⟩ | ⟨condition, yes, no, hb⟩ := hc <;> rw [hb] <;> rfl
    rw [hzero] at hpop ⊢
    exact .inl ⟨1, 0, [], es, .keep hc, hpop, .inl rfl⟩
  · have hmoves : w.tree.Moves (.finish node) 1 (w.tree.construct node).operandCount 1 := by
      refine .finish (fun block hb => hkeep ?_) fun condition yes no hb => hkeep ?_ <;>
      · unfold World.outcome at ho
        rw [hb] at ho
        cases ho
        rfl
    have hleft : ∀ {m1 : Machine} {es'} (v : Value),
        m1.Has (((f.skip 1).pop (w.tree.construct node).operandCount).2 :: below) es' →
        Named es f es' →
        MovesFrame w.tree (.finish node) f below es (m1.push v) :=
      fun v h1 hn => ⟨1, _, [v], _, hmoves, h1.push v, hn⟩
    cases o with
    | keep => exact absurd rfl hkeep
    | value v => cases hp; exact .inl (hleft v hpop (.inl rfl))
    | named name v => cases hp; exact .inl (hleft v (hpop.bind name v) (.inr ⟨name, v, rfl⟩))
    | reaction v => cases hp; exact .inl (hleft v ⟨hpop.frames, hpop.evaluations⟩ (.inl rfl))
    | stream kind inputs => cases hp; exact .inl (hleft _ hpop (.inl rfl))
    | run call =>
      obtain ⟨m1, hm, hp⟩ := bind_eq_ok hp
      cases hp
      obtain ⟨name, counts, -, -, -, rfl⟩ := enter_cases hm
      refine .inr ⟨node, call, rfl, hmoves, ho, ?_, ?_⟩
      · rw [hpop.frames, hpop.evaluations]
        rfl
      · exact congrArg (fun es => (Evaluations.begin es _).2) hpop.evaluations

end

/-- A step moves the frame that runs, or begins a call. -/
theorem execute_cases (hw : w.tree.WellFormed) (hcode : w.program.code = Code.ofTree w.tree)
    (h : m.Has (f :: below) es) {s : Step} (he : m.advanced.execute w s = .ok (m', streams)) :
    MovesFrame w.tree s f below es m' ∨ BeginsCall w s f below es m' := by
  have hlen : ∀ node, w.program.code.length node = (w.tree.code node).length := fun node => by
    rw [hcode, Code.length_ofTree]
  cases s with
  | start node => cases he; exact .inl (h.startNode hlen hw.code_length_pos node)
  | check node => cases he; exact .inl (h.checkReaction hlen node)
  | jump node count =>
    cases he
    refine .inl ⟨_, 0, [], es, .jump node count, ?_, .inl rfl⟩
    simpa [Frame.skip, Frame.moved, Nat.add_assoc] using h.advanced.skip count
  | jumpIf node count when =>
    cases executes he with
    | jumpIf branched => exact .inl (h.branch branched)
  | finish node =>
    obtain ⟨o, m1, ho, hp, hremains⟩ := h.execute_finish he
    obtain ⟨skip, takes, values, es', hmoves, hm, hn⟩ |
      ⟨node', call, hs, hmoves, ho, hm⟩ := h.perform ho hp
    · exact .inl ⟨skip, takes, values, es', hmoves, hremains hm, hn⟩
    · exact .inr ⟨node', call, hs, hmoves, ho, hremains hm⟩

/-! ## Frames that are done -/

/-- A frame with a next step stays where it is. -/
theorem settle_of_next? (hf : m.frames = f :: below) {s : Step} (hn : f.next? = some s) :
    m.settle w = m := by
  have hd := Frame.isDone_of_next? hn
  unfold settle
  rw [hf]
  cases below with
  | nil => simp [leave, hd, ← hf]
  | cons caller below => simp [leave, hd, ← hf]

/-- With the last frame no frame is left. -/
theorem settle_of_last (hf : m.frames = [f]) (hd : f.isDone = true) : (m.settle w).frames = [] := by
  unfold settle
  rw [hf]
  simp [leave, hd]

/-- The machine with a value handed to a frame that waits for it. -/
def handed (w : World) (m : Machine) (caller : Frame) (below : List Frame) (v : Value) : Machine :=
  let handed := { m with frames := caller.push v :: below }
  if below.isEmpty then handed.rememberCall w (caller.push v) else handed

theorem has_handed (w : World) (m : Machine) (caller : Frame) (below : List Frame) (v : Value) :
    (handed w m caller below v).Has (caller.push v :: below) m.evaluations := by
  unfold handed
  obtain ⟨memo, hmemo⟩ :=
    rememberCall_eq { m with frames := caller.push v :: below } w (caller.push v)
  dsimp only
  rw [hmemo]
  split <;> exact ⟨rfl, rfl⟩

/-- A frame that is done hands its value to its caller. -/
theorem settle_done {caller : Frame} (hf : m.frames = f :: caller :: below)
    (hd : f.isDone = true) :
    m.settle w = (handed w m caller below (m.frameResult w f)).settle w := by
  have hsettle : ∀ m1 : Machine, m1.frames = caller.push (m.frameResult w f) :: below →
      m1.settle w = leave w (caller.push (m.frameResult w f)) below m1 := by
    intro m1 h1
    unfold settle
    rw [h1]
  rw [hsettle _ (has_handed w m caller below _).frames]
  unfold settle
  rw [hf]
  simp only [leave, hd, if_true]
  rfl

/-- A frame that is done is left, and its caller gets a value. -/
theorem settle_of_done {caller : Frame} (h : m.Has (f :: caller :: below) es)
    (hd : f.isDone = true) : ∃ (m1 : Machine) (v : Value), m1.Has (caller.push v :: below) es ∧
      m.settle w = m1.settle w := by
  have hhas := has_handed w m caller below (m.frameResult w f)
  rw [h.evaluations] at hhas
  exact ⟨_, _, hhas, settle_done h.frames hd⟩

end Machine
end ReactiveLang
