import ReactiveLang.Proofs.Eval.Binding

/-!
# Calls and the evaluations they begin

A step calls a definition or it leaves frames, counters and links as they are. A call puts one frame
on top, counts once and begins one evaluation, unless a limit is in its way.

* `execute_calls`, `step_calls`: the two cases for the effect of a step and for a whole step.
* `Evaluations.callsOf`: the evaluations of a definition that calls have begun; `Tallied` says that
  the machine counts just these, and `step_tallied` that every step keeps it.
-/

namespace ReactiveLang

/-! ## Evaluations and where they come from -/

/-- What an evaluation runs and where its link goes; names that are bound later change neither. -/
def Evaluation.origin (e : Evaluation) : NodeId × Option EvaluationId := (e.definition, e.closure)

namespace Evaluations

/-- The same evaluations, with other names bound. -/
structure SameOrigins (es es' : Evaluations) : Prop where
  size : es'.size = es.size
  origins : ∀ id, (es'.find? id).map Evaluation.origin = (es.find? id).map Evaluation.origin

variable {es es' : Evaluations}

theorem SameOrigins.refl (es : Evaluations) : SameOrigins es es := ⟨rfl, fun _ => rfl⟩

theorem SameOrigins.trans {a b c : Evaluations} (h : SameOrigins a b) (h' : SameOrigins b c) :
    SameOrigins a c :=
  ⟨h'.size.trans h.size, fun id => (h'.origins id).trans (h.origins id)⟩

theorem sameOrigins_bind (es : Evaluations) (at_ : EvaluationId) (name : String) (v : Value) :
    SameOrigins es (Evaluations.bind es at_ name v) := by
  refine ⟨rfl, fun id => ?_⟩
  rw [find?_bind]
  split
  · cases es.find? id <;> rfl
  · rfl

theorem SameOrigins.begin (h : SameOrigins es es') (e : Evaluation) :
    SameOrigins (es.begin e).2 (es'.begin e).2 := by
  refine ⟨congrArg (· + 1) h.size, fun id => ?_⟩
  rw [find?_begin, find?_begin, h.size]
  split
  · rfl
  · exact h.origins id

/-- Every place up to the newest has its evaluation. -/
def Dense (es : Evaluations) : Prop := ∀ id, id.index < es.size → (es.find? id).isSome = true

theorem SameOrigins.dense (h : SameOrigins es es') (hd : es.Dense) : es'.Dense := by
  intro id hid
  have hsome := hd id (h.size ▸ hid)
  have heq := congrArg Option.isSome (h.origins id)
  simpa [hsome] using heq

theorem Dense.begin (h : es.Dense) (e : Evaluation) : (es.begin e).2.Dense := by
  intro id hid
  rw [find?_begin]
  split
  · rfl
  · rename_i hne
    refine h id (Nat.lt_of_le_of_ne (Nat.le_of_lt_succ hid) fun heq => hne ?_)
    exact congrArg EvaluationId.mk heq

/-- The evaluation at a place was begun by a call of the definition. -/
def isCallOf (es : Evaluations) (definition : NodeId) (place : Nat) : Bool :=
  match (es.find? ⟨place⟩).map Evaluation.origin with
  | some (found, some _) => found = definition
  | _ => false

/-- The number of evaluations that calls of the definition have begun. -/
def callsOf (es : Evaluations) (definition : NodeId) : Nat :=
  (List.range es.size).countP (es.isCallOf definition)

theorem SameOrigins.callsOf (h : SameOrigins es es') (definition : NodeId) :
    es'.callsOf definition = es.callsOf definition := by
  unfold Evaluations.callsOf isCallOf
  simp only [h.size, h.origins]

theorem callsOf_begin {e : Evaluation} {closure : EvaluationId} (hc : e.closure = some closure)
    (definition : NodeId) : (es.begin e).2.callsOf definition =
      es.callsOf definition + if e.definition = definition then 1 else 0 := by
  have hold : ∀ place ∈ List.range es.size, (es.begin e).2.isCallOf definition place =
      es.isCallOf definition place := by
    intro place hplace
    unfold isCallOf
    rw [find?_begin, if_neg]
    rintro ⟨⟩
    exact Nat.lt_irrefl _ (List.mem_range.1 hplace)
  have hnew : (es.begin e).2.isCallOf definition es.size = decide (e.definition = definition) := by
    unfold isCallOf
    rw [find?_begin, if_pos rfl]
    simp only [Option.map_some, Evaluation.origin, hc]
  have hsize : (es.begin e).2.size = es.size + 1 := rfl
  unfold Evaluations.callsOf
  rw [hsize, List.range_succ, List.countP_append, List.countP_congr fun place hplace => by
    rw [hold place hplace], List.countP_singleton, hnew]
  simp

end Evaluations

namespace Machine

variable {m m' : Machine} {w : World} {s : Step} {streams : Streams}

/-! ## What leaves calls alone -/

/-- `m'` has the counters and the evaluations of `m`, with other names bound, and no more frames. -/
structure SameCalls (m m' : Machine) : Prop where
  counts : m'.callCounts = m.callCounts
  depth : m'.depth ≤ m.depth
  origins : Evaluations.SameOrigins m.evaluations m'.evaluations

theorem SameCalls.refl (m : Machine) : SameCalls m m := ⟨rfl, Nat.le_refl _, .refl _⟩

theorem SameCalls.trans {a b c : Machine} (h : SameCalls a b) (h' : SameCalls b c) :
    SameCalls a c :=
  ⟨h'.counts.trans h.counts, Nat.le_trans h'.depth h.depth, h.origins.trans h'.origins⟩

/-- How often a definition was called. -/
def callCount (m : Machine) (definition : NodeId) : Nat := (m.callCounts.lookup definition).getD 0

theorem SameCalls.callCount (h : SameCalls m m') (definition : NodeId) :
    m'.callCount definition = m.callCount definition :=
  congrArg (fun calls => (List.lookup definition calls).getD 0) h.counts

theorem SameCalls.withMemo (h : SameCalls m m') (memo : List (NodeId × Value)) :
    SameCalls m { m' with memo } := ⟨h.counts, h.depth, h.origins⟩

theorem withFrame_depth (m : Machine) (change : Frame → Frame) :
    (m.withFrame change).depth = m.depth := by
  unfold withFrame depth
  split
  · rename_i hf
    simp [hf]
  · rfl

theorem pop_depth (m : Machine) (count : Nat) : (m.pop count).2.depth = m.depth := by
  unfold pop depth
  cases hf : m.frames <;> simp [hf]

theorem advanced_depth (m : Machine) : m.advanced.depth = m.depth :=
  withFrame_depth { m with index := m.index + 1, status := .running } _

theorem sameCalls_withFrame (m : Machine) (change : Frame → Frame) :
    SameCalls m (m.withFrame change) := by
  refine ⟨?_, Nat.le_of_eq (m.withFrame_depth change), ?_⟩
  · unfold withFrame
    split <;> rfl
  · rw [withFrame_evaluations]
    exact .refl _

theorem SameCalls.skip (h : SameCalls m m') (count : Nat) : SameCalls m (m'.skip count) :=
  h.trans (sameCalls_withFrame m' _)

theorem SameCalls.push (h : SameCalls m m') (v : Value) : SameCalls m (m'.push v) :=
  h.trans (sameCalls_withFrame m' _)

theorem sameCalls_pop (m : Machine) (count : Nat) : SameCalls m (m.pop count).2 := by
  refine ⟨?_, Nat.le_of_eq (m.pop_depth count), ?_⟩
  · unfold pop
    split <;> rfl
  · rw [pop_evaluations]
    exact .refl _

theorem SameCalls.bind (h : SameCalls m m') (name : String) (v : Value) :
    SameCalls m (m'.bind name v) :=
  ⟨h.counts, h.depth, h.origins.trans (Evaluations.sameOrigins_bind _ _ _ _)⟩

theorem sameCalls_advanced (m : Machine) : SameCalls m m.advanced :=
  SameCalls.trans (b := { m with index := m.index + 1, status := .running })
    ⟨rfl, Nat.le_refl _, .refl _⟩ (sameCalls_withFrame _ _)

theorem sameCalls_remember (m : Machine) (w : World) (node : NodeId) :
    SameCalls m (m.remember w node) := by
  obtain ⟨memo, hm⟩ := m.remember_eq w node
  rw [hm]
  exact (SameCalls.refl m).withMemo memo

theorem sameCalls_startNode (m : Machine) (w : World) (node : NodeId) :
    SameCalls m (m.startNode w node) := by
  obtain ⟨hstart, -⟩ | ⟨v, -, -, hstart⟩ := m.startNode_cases w node <;> rw [hstart]
  · exact .refl m
  · exact (((SameCalls.refl m).skip _).withMemo _).push _

theorem sameCalls_checkReaction (m : Machine) (w : World) (node : NodeId) :
    SameCalls m (m.checkReaction w node) :=
  checkReaction_keeps node (.refl m) (fun _ _ _ => (SameCalls.refl m).bind _ _)
    fun _ _ h1 => h1.skip _

theorem sameCalls_branch {node : NodeId} {count : Nat} {when : Bool}
    (h : m.branch w node count when = .ok m') : SameCalls m m' := by
  have hpop := sameCalls_pop m 1
  obtain ⟨b, -, ⟨-, rfl⟩ | ⟨-, -, rfl⟩ | ⟨-, -, rfl⟩⟩ := branch_cases h
  · exact hpop
  · exact hpop.skip count
  · exact (hpop.skip count).push _

theorem leave_depth (w : World) (f : Frame) (rest : List Frame) (m : Machine) :
    (leave w f rest m).depth ≤ rest.length + 1 := by
  induction rest generalizing f m with
  | nil =>
    unfold leave
    split <;> simp [depth]
  | cons caller rest ih =>
    unfold leave
    split
    · exact Nat.le_succ_of_le (ih _ _)
    · exact Nat.le_refl _

theorem sameCalls_settle (w : World) (m : Machine) : SameCalls m (m.settle w) := by
  have hdepth : (m.settle w).depth ≤ m.depth := by
    unfold settle
    split
    · rename_i f rest hf
      simpa [depth, hf] using leave_depth w f rest m
    · exact Nat.le_refl _
  obtain ⟨_, _, _, _, heq⟩ := m.settle_eq w
  exact ⟨by rw [heq], hdepth, settle_evaluations w m ▸ .refl _⟩

/-! ## What a call does -/

/-- The step finishes a node that asks for a call, which has this name in messages. -/
def Calls (w : World) (m : Machine) (s : Step) (call : Call) (name : String) : Prop :=
  ∃ node, s = .finish node ∧ m.outcomeOf w node = .ok (.run call) ∧
    callName w.tree call = .ok name

/-- The call was let in: it is counted, and has a frame and an evaluation of its own. -/
structure Entered (w : World) (m : Machine) (call : Call) (m' : Machine) : Prop where
  depth_lt : m.depth < w.program.config.maxCallDepth
  count_lt : m.callCount call.definition < w.program.config.maxEvaluations
  counts : m'.callCounts =
    Keyed.insert call.definition (m.callCount call.definition + 1) m.callCounts
  depth : m'.depth ≤ m.depth + 1
  origins : Evaluations.SameOrigins (m.evaluations.begin (call.evaluation w.tree)).2 m'.evaluations

/-- A call is refused at the first limit that is in its way: frames are looked at before calls. -/
inductive Refuses (config : Config) (m : Machine) (definition : NodeId) (name : String) :
    ExceptionKind Value → Prop where
  | depth (limit : config.maxCallDepth ≤ m.depth) :
      Refuses config m definition name .callDepthLimit
  | evaluations (depth : m.depth < config.maxCallDepth)
      (limit : config.maxEvaluations ≤ m.callCount definition) :
      Refuses config m definition name (.evaluationLimit name)

/-- A call is refused or counted. -/
theorem countCall_spec (m : Machine) (config : Config) (definition : NodeId) (name : String) :
    (∃ kind, m.countCall config definition name = .error kind ∧
      Refuses config m definition name kind) ∨
    m.depth < config.maxCallDepth ∧ m.callCount definition < config.maxEvaluations ∧
      m.countCall config definition name = .ok { m with
        callCounts := Keyed.insert definition (m.callCount definition + 1) m.callCounts } := by
  unfold countCall
  dsimp only
  split
  · rename_i hd
    exact .inl ⟨_, rfl, .depth hd⟩
  · rename_i hd
    split
    · rename_i hc
      exact .inl ⟨_, rfl, .evaluations (Nat.lt_of_not_le hd) (Nat.le_of_lt_succ hc)⟩
    · rename_i hc
      exact .inr ⟨Nat.lt_of_not_le hd, Nat.lt_of_succ_le (Nat.le_of_not_lt hc), rfl⟩

theorem enter_entered {call : Call} (h : m.enter w call = .ok m') : Entered w m call m' := by
  obtain ⟨name, counts, -, hcount, -, rfl⟩ := enter_cases h
  obtain ⟨kind, hrefused, -⟩ | ⟨hdepth, hcalls, hcounted⟩ :=
    m.countCall_spec w.program.config call.definition name
  · rw [hrefused] at hcount
    cases hcount
  · rw [hcounted] at hcount
    obtain ⟨⟩ := hcount
    exact ⟨hdepth, hcalls, rfl, Nat.le_refl _, .refl _⟩

theorem Entered.within {m1 m2 : Machine} {call : Call} (before : SameCalls m m1)
    (hdepth : m1.depth = m.depth) (h : Entered w m1 call m2) (after : SameCalls m2 m') :
    Entered w m call m' where
  depth_lt := hdepth ▸ h.depth_lt
  count_lt := before.callCount call.definition ▸ h.count_lt
  counts := by rw [after.counts, h.counts, before.callCount, before.counts]
  depth := Nat.le_trans after.depth (hdepth ▸ h.depth)
  origins := (before.origins.begin _).trans (h.origins.trans after.origins)

/-- What a node asks for leaves calls alone, unless it is a call. -/
theorem perform_calls {node : NodeId} {o : Outcome} (h : m.perform w node o = .ok (m', streams)) :
    SameCalls m m' ∨ ∃ call name, o = .run call ∧ callName w.tree call = .ok name ∧
      Entered w m call m' := by
  cases o with
  | keep => cases h; exact .inl (.refl m)
  | value v => cases h; exact .inl ((SameCalls.refl m).push v)
  | named name v => cases h; exact .inl (((SameCalls.refl m).bind name v).push v)
  | reaction v =>
    cases h
    have hr : SameCalls m { m with reactions := Keyed.insert node v m.reactions } :=
      ⟨rfl, Nat.le_refl _, .refl _⟩
    exact .inl (hr.push v)
  | stream kind inputs => cases h; exact .inl ((SameCalls.refl m).push _)
  | run call =>
    obtain ⟨m1, hm, h⟩ := bind_eq_ok h
    cases h
    obtain ⟨name, -, hname, -⟩ := enter_cases hm
    exact .inr ⟨call, name, rfl, hname, enter_entered hm⟩

/-- The effect of a step leaves calls alone, or the step calls a definition. -/
theorem execute_calls (h : m.execute w s = .ok (m', streams)) :
    SameCalls m m' ∨ ∃ call name, m.Calls w s call name ∧ Entered w m call m' := by
  cases executes h with
  | start node => exact .inl (sameCalls_startNode m w node)
  | check node => exact .inl (sameCalls_checkReaction m w node)
  | jump node count => exact .inl ((SameCalls.refl m).skip count)
  | jumpIf branched => exact .inl (sameCalls_branch branched)
  | @finish node o m1 _ outcome performed =>
    have hpop := sameCalls_pop m (w.tree.construct node).operandCount
    have hrem : SameCalls m1 (if m1.inProgram then m1.remember w node else m1) := by
      split
      · exact sameCalls_remember _ _ _
      · exact .refl _
    obtain hsame | ⟨call, name, rfl, hname, hin⟩ := perform_calls performed
    · exact .inl (hpop.trans (hsame.trans hrem))
    · exact .inr ⟨call, name, ⟨node, rfl, outcome, hname⟩, hin.within hpop (m.pop_depth _) hrem⟩

theorem Calls.of_advanced {call : Call} {name : String} (h : m.advanced.Calls w s call name) :
    m.Calls w s call name := by
  obtain ⟨node, hs, ho, hname⟩ := h
  exact ⟨node, hs, (outcomeOf_advanced node).symm.trans ho, hname⟩

/-- A step leaves calls alone, or calls a definition. -/
theorem step_calls (h : m.step w = some (s, m', streams)) :
    SameCalls m m' ∨ ∃ call name, m.Calls w s call name ∧ Entered w m call m' := by
  have ha := sameCalls_advanced m
  obtain ⟨-, ⟨f, -, rfl, -⟩ | ⟨m1, he, rfl⟩⟩ := step_cases h
  · exact .inl ⟨ha.counts, Nat.zero_le _, ha.origins⟩
  · have hsettle := sameCalls_settle { w with streams } m1
    obtain hsame | ⟨call, name, hcalls, hin⟩ := execute_calls he
    · exact .inl (ha.trans (hsame.trans hsettle))
    · exact .inr ⟨call, name, hcalls.of_advanced, hin.within ha m.advanced_depth hsettle⟩

/-! ## Counters and evaluations -/

/-- Every evaluation has its place, and calls are counted by the evaluations that they began. -/
structure Tallied (m : Machine) : Prop where
  dense : m.evaluations.Dense
  counts : ∀ definition, m.callCount definition = m.evaluations.callsOf definition

theorem tallied_start (p : Program) : (start p).Tallied := by
  refine ⟨fun id hid => ?_, fun definition => ?_⟩
  · rw [find?_start, if_pos]
    · rfl
    · exact congrArg EvaluationId.mk (Nat.lt_one_iff.1 hid)
  · -- the program's own evaluation was begun by no call
    refine (List.countP_eq_zero.2 fun place _ => ?_).symm
    unfold Evaluations.isCallOf
    rw [find?_start]
    split
    · rename_i hfound
      split at hfound <;> cases hfound
    · exact Bool.false_ne_true

theorem step_tallied (ht : m.Tallied) (h : m.step w = some (s, m', streams)) : m'.Tallied := by
  obtain hsame | ⟨call, name, -, hin⟩ := step_calls h
  · refine ⟨hsame.origins.dense ht.dense, fun definition => ?_⟩
    rw [hsame.callCount, ht.counts, hsame.origins.callsOf]
  · refine ⟨hin.origins.dense (ht.dense.begin _), fun definition => ?_⟩
    have hclosure : (call.evaluation w.tree).closure = some call.closure :=
      (bindInputs_fields _ _ _ _).2
    rw [hin.origins.callsOf, Evaluations.callsOf_begin hclosure, ← ht.counts,
      call.evaluation_definition]
    unfold callCount
    rw [hin.counts]
    split
    · rename_i heq
      rw [← heq, Keyed.lookup_insert_self]
      rfl
    · rename_i hne
      rw [Keyed.lookup_insert_of_ne (Ne.symm hne)]
      rfl

end Machine
end ReactiveLang
