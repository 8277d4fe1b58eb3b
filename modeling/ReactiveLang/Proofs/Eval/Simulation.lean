import ReactiveLang.Proofs.Eval.Operands

/-!
# The machine evaluates by recursion

The code of a node does what `Direct.evaluate` does with the node: it gets past its steps and
leaves the value on the frame that runs (`evaluate_follows`). A call runs in a frame of its own, on
the values of its own evaluation, and hands its value back when it is done (`call_tracks`).
-/

namespace ReactiveLang

open Pass Direct

/-! ## The operands that are taken -/

namespace World

variable {w : World} {es : Evaluations} {current : EvaluationId} {node : NodeId}
  {operands : List Value}

theorem callOutcome_cases {function : Value} {arguments : List Value} {o : Outcome}
    (h : callOutcome function arguments = .ok o) :
    (∃ v, o = .value v) ∨ (∃ kind inputs, o = .stream kind inputs) ∨ ∃ call, o = .run call := by
  unfold callOutcome at h
  split at h
  · cases h; exact .inr (.inr ⟨_, rfl⟩)
  · cases h; exact .inr (.inr ⟨_, rfl⟩)
  · split at h
    · cases h
    · cases h; exact .inr (.inr ⟨_, rfl⟩)
  · obtain ⟨v, -, h⟩ := bind_eq_ok h
    cases h
    exact .inl ⟨v, rfl⟩
  · cases h; exact .inr (.inl ⟨_, _, rfl⟩)
  · cases h

theorem convertOutcome_cases {v : Value} {target : Ty} {o : Outcome}
    (h : w.convertOutcome node v target = .ok o) :
    (∃ v, o = .value v) ∨ ∃ call, o = .run call := by
  unfold convertOutcome at h
  split at h
  · cases h; exact .inl ⟨v, rfl⟩
  · split at h
    · cases h
    · obtain ⟨u, -, h⟩ := bind_eq_ok h
      cases h
      exact .inl ⟨u, rfl⟩
    · cases h; exact .inr ⟨_, rfl⟩

/-- Only the program and a conditional leave the value that is there. -/
theorem outcome_keep (h : w.outcome es current node operands = .ok .keep) :
    (∃ block, w.tree.construct node = .program block) ∨
      ∃ condition yes no, w.tree.construct node = .conditional condition yes no := by
  unfold outcome at h
  dsimp only at h
  split at h
  · exact .inl ⟨_, ‹_›⟩
  · exact .inr ⟨_, _, _, ‹_›⟩
  all_goals first
    | cases h
    | (rcases callOutcome_cases h with ⟨v, hv⟩ | ⟨kind, inputs, hv⟩ | ⟨call, hv⟩ <;> cases hv)
    | (rcases convertOutcome_cases h with ⟨v, hv⟩ | ⟨call, hv⟩ <;> cases hv)
    | (obtain ⟨v, -, hv⟩ := map_eq_ok h; cases hv)

/-- What gets a name is a definition of the name. -/
theorem outcome_named {name : String} {v : Value}
    (h : w.outcome es current node operands = .ok (.named name v)) :
    (w.tree.construct node).definedName? = some name := by
  unfold outcome at h
  dsimp only at h
  split at h
  all_goals first
    | (rename_i hc; rw [hc]; cases h; rfl)
    | cases h
    | (rcases callOutcome_cases h with ⟨v, hv⟩ | ⟨kind, inputs, hv⟩ | ⟨call, hv⟩ <;> cases hv)
    | (rcases convertOutcome_cases h with ⟨v, hv⟩ | ⟨call, hv⟩ <;> cases hv)
    | (obtain ⟨v, -, hv⟩ := map_eq_ok h; cases hv)

end World

variable {r : Recall} {p : Program} {pass : Pass} {fuel depth : Nat} {s : Scene} {f : Frame}
  {rest : List Frame} {n : Nat} {node : NodeId} {m : Machine} {streams : Streams}
  {operands : List Value}

/-- What a node takes when it finishes are its operands. The program and a conditional take nothing;
all others leave nothing. -/
def Taken (r : Recall) (w : World) (s : Scene) (f : Frame) (rest : List Frame) (n : Nat)
    (node : NodeId) (operands : List Value) (taken : List Value × Machine)
    (streams : Streams) : Prop :=
  w.outcome s.evaluations f.evaluation node taken.1 =
      w.outcome s.evaluations f.evaluation node operands ∧
    ∀ o, w.outcome s.evaluations f.evaluation node operands = .ok o →
      (o = .keep ∧ ∃ v, operands = [v] ∧ s.At r (f.passed n [v] :: rest) (taken.2, streams)) ∨
        (o ≠ .keep ∧ s.At r (f.passed n [] :: rest) (taken.2, streams))

theorem operands_taken {w : World} (hm : s.At r (f.passed n operands.reverse :: rest) (m, streams))
    (hlen : operands.length = (w.tree.construct node).valueCount) :
    Taken r w s f rest n node operands (m.pop (w.tree.construct node).operandCount) streams := by
  -- where all values are taken, the node is none of those that keep a value
  have hall : (w.tree.construct node).operandCount = operands.length →
      (∀ block, w.tree.construct node ≠ .program block) →
      (∀ condition yes no, w.tree.construct node ≠ .conditional condition yes no) →
      Taken r w s f rest n node operands (m.pop (w.tree.construct node).operandCount) streams := by
    intro hcount hprogram hconditional
    rw [hcount]
    refine ⟨by rw [hm.pop.1], fun o ho => .inr ⟨?_, hm.pop.2⟩⟩
    rintro rfl
    obtain ⟨block, hb⟩ | ⟨condition, yes, no, hc⟩ := World.outcome_keep ho
    · exact hprogram block hb
    · exact hconditional condition yes no hc
  cases hnode : w.tree.construct node with
  | program | conditional =>
    rw [hnode] at hlen
    obtain ⟨v, rfl⟩ := List.length_eq_one_iff.1 hlen
    have hkeep : ∀ ops, w.outcome s.evaluations f.evaluation node ops = .ok .keep := by
      intro ops
      unfold World.outcome
      rw [hnode]
    refine ⟨by rw [hkeep, hkeep], fun o ho => .inl ?_⟩
    rw [hkeep] at ho
    cases ho
    have hnone : s.At r ((f.passed n [v]).passed 0 ([] : List Value).reverse :: rest) (m, streams) :=
      hm
    exact ⟨rfl, v, rfl, hnone.pop.2⟩
  | _ =>
    rw [hnode] at hlen hall
    exact hall hlen.symm nofun nofun

/-! ## Calls -/

/-- A failure of a node; else the program's own frame keeps what a later pass may use. -/
def Machine.attribute (w : World) (node : NodeId) :
    Except (ExceptionKind Value) (Machine × Streams) → Except Failure (Machine × Streams)
  | .ok (m, streams) => .ok (if m.inProgram then m.remember w node else m, streams)
  | .error kind => .error ⟨kind, node⟩

theorem Machine.execute_finish (m : Machine) (w : World) (node : NodeId) :
    m.execute w (.finish node) = Machine.attribute w node (m.finishNode w node) := by
  unfold Machine.execute
  cases h : m.finishNode w node <;> simp only [h] <;> rfl

/-- A call that has been counted begins: the second half of `Machine.enter`. -/
def Machine.entered (m : Machine) (w : World) (call : Call) : Except (ExceptionKind Value) Machine :=
  let inputs := if call.kind = .conversion then [] else w.tree.inputsOf call.definition
  let provided := min call.arguments.length inputs.length
  match (inputs.drop provided).findSome? (Machine.requiredName? w.tree) with
  | some missing => throw (.valueRequired missing)
  | none =>
    let evaluation : Evaluation :=
      { Evaluation.start call.kind call.definition (some call.closure) with subject := call.subject }
    let (id, evaluations) :=
      m.evaluations.begin (Machine.bindInputs w.tree inputs call.arguments evaluation)
    let frame : Frame := ⟨call.kind, w.program.code.ofCall call.definition provided, 0, [], id⟩
    return { m with evaluations, frames := frame :: m.frames }

theorem Machine.enter_nameless (w : World) {call : Call} {kind : ExceptionKind Value}
    (hn : Machine.callName w.tree call = .error kind) : m.enter w call = .error kind := by
  unfold Machine.enter
  rw [hn]
  rfl

theorem Machine.enter_stopped (w : World) {call : Call} {name : String} {kind : ExceptionKind Value}
    (hn : Machine.callName w.tree call = .ok name)
    (hk : m.countCall w.program.config call.definition name = .error kind) :
    m.enter w call = .error kind := by
  unfold Machine.enter
  rw [hn]
  show (m.countCall w.program.config call.definition name >>= _) = _
  rw [hk]
  rfl

theorem Machine.enter_counted (w : World) {call : Call} {name : String} {m1 : Machine}
    (hn : Machine.callName w.tree call = .ok name)
    (hk : m.countCall w.program.config call.definition name = .ok m1) :
    m.enter w call = m1.entered w call := by
  unfold Machine.enter
  rw [hn]
  show (m.countCall w.program.config call.definition name >>= _) = _
  rw [hk]
  rfl

theorem resultOf_runFrom {kind : EvaluationKind} {id : EvaluationId} {values : List Value}
    (g : Frame) (hk : g.kind = kind) (hi : g.evaluation = id) (hv : g.values = values.reverse) :
    (resultOf p pass kind id values).runFrom s = some (.ok (valueOf p pass s g), s) := by
  subst hk hi
  unfold resultOf valueOf
  rw [runFrom_bind_ok runFrom_get, hv, List.headD_eq_head?_getD, List.head?_reverse]
  split <;> rfl

/-- The value of a frame names nothing outside the tree. -/
theorem valueOf_holds (hs : s.InTree p.tree) {g : Frame}
    (hv : ∀ v ∈ g.values, v.Holds (Handle.InTree p.tree))
    (hbegun : (s.evaluations.find? g.evaluation).isSome = true) :
    (valueOf p pass s g).Holds (Handle.InTree p.tree) := by
  unfold valueOf
  split
  · refine hs.evaluations.instanceAt p.tree ?_
    obtain ⟨e, he⟩ := Option.isSome_iff_exists.1 hbegun
    rw [he]
    exact hs.definitions _ e he
  · refine World.seen_holds hs.streams ?_
    cases hvalues : g.values with
    | nil => exact Value.holds_nothing
    | cons v values => exact hv v (by simp [hvalues])

/-- The step before the next one has finished no other node. -/
def Frame.LastFinished (f : Frame) (node : NodeId) : Prop :=
  ∀ position node', f.position = position + 1 →
    f.steps[position]? = some (.finish node') → node' = node

/-- The code of a call runs in its own frame, and the caller's frame gets the value. -/
theorem body_follows {run : NodeId → Direct Value} {nodes : List NodeId} {g : Frame}
    (hev : ∀ node ∈ nodes, ∀ s, Evaluates r p pass fuel run g.evaluation (f :: rest) node s)
    (hkept : rest = [] → ∀ v s',
      (nodes.mapM run >>= resultOf p pass g.kind g.evaluation).runFrom s = some (.ok v, s') →
        ∀ position node, f.position = position + 1 →
          f.steps[position]? = some (.finish node) → r.allows s'.streams.size node v)
    (hsteps : g.steps = (nodes.flatMap p.tree.code).toArray) (hpos : g.position = 0)
    (hvalues : g.values = []) (hbegun : (s.evaluations.find? g.evaluation).isSome = true) :
    Follows r p pass fuel (nodes.mapM run >>= resultOf p pass g.kind g.evaluation) s
      (g :: f :: rest) (fun v => f.passed 0 [v] :: rest)
      (fun v => v.Holds (Handle.InTree p.tree)) := by
  have hruns : g.Runs (nodes.flatMap p.tree.code) := by
    unfold Frame.Runs
    rw [hsteps, hpos]
    exact List.prefix_refl _
  refine (follows_mapM (fun _ node _ hnodes _ s' _ => hev node (by rw [hnodes]; simp) s')
    hruns).bind fun values s1 hvalues1 hg hv => ?_
  let done := g.passed (nodes.flatMap p.tree.code).length values.reverse
  have hdone : done.isDone = true := by simp [done, Frame.isDone, Frame.passed, hsteps, hpos]
  have hresult : (resultOf p pass g.kind g.evaluation values).runFrom s1 =
      some (.ok (valueOf p pass s1 done), s1) :=
    resultOf_runFrom done rfl rfl (by simp [done, hvalues])
  refine Follows.leave hdone (fun hrest => hkept hrest _ s1 ?_) fun hs c hc => ?_
  · rw [runFrom_bind_ok hvalues1, hresult]
  rw [hresult]
  refine .reached c (.refl _) hs (valueOf_holds hs (fun v hm => ?_) (hg.begun _ hbegun)) hc .refl
  simp only [done, Frame.passed_values, hvalues, List.append_nil, List.mem_reverse] at hm
  exact hv.2 v hm

/-- The second half of a call: its frame is there, and runs until it is done. -/
theorem entered_tracks (node : NodeId) (hp : Prepared p pass)
    {run : EvaluationId → NodeId → Direct Value} {call : Call}
    (hcall : call.Holds (Handle.InTree p.tree))
    (hev : ∀ id node s, p.tree.Reaches node → Evaluates r p pass fuel (run id) id (f :: rest) node s)
    (hlast : f.LastFinished node)
    (hkept : rest = [] → ∀ v s', (enter p pass run node call).runFrom s = some (.ok v, s') →
      r.allows s'.streams.size node v)
    (hs : s.InTree p.tree) (hm : s.At r (f :: rest) (m, s.streams)) {m0 : Machine}
    (hm0 : s.Leaves r m0) :
    Tracks r p pass fuel s (fun v => f.passed 0 [v] :: rest)
      (fun v => v.Holds (Handle.InTree p.tree))
      (Machine.conclude (s.world p pass) m0 (Machine.attribute (s.world p pass) node
        ((m.entered (s.world p pass) call).map fun m => (m, s.streams))))
      ((enter p pass run node call).runFrom s) := by
  have hreach : p.tree.Reaches call.definition := by
    refine hcall.callable call.definition ?_
    unfold Call.callable
    split <;> rfl
  unfold enter at hkept
  unfold Machine.entered enter
  simp only [Scene.world_tree, Scene.world_program]
  dsimp only at hkept
  generalize (if call.kind = .conversion then [] else p.tree.inputsOf call.definition) = inputs
    at hkept ⊢
  generalize min call.arguments.length inputs.length = provided at hkept ⊢
  generalize (inputs.drop provided).findSome? (Machine.requiredName? p.tree) = required
    at hkept ⊢
  cases required with
  | some missing => exact tracks_error hm0 rfl _
  | none =>
    let e := Machine.bindInputs p.tree inputs call.arguments
      { Evaluation.start call.kind call.definition (some call.closure) with subject := call.subject }
    let id : EvaluationId := ⟨s.evaluations.size⟩
    let s1 : Scene := { s with evaluations := (s.evaluations.begin e).2 }
    let g : Frame := ⟨call.kind, p.code.ofCall call.definition provided, 0, [], id⟩
    let m1 : Machine :=
      { m with evaluations := (s.evaluations.begin e).2, frames := g :: m.frames }
    have hes : m.evaluations = s.evaluations := hm.evaluations
    have hs1 : s1.InTree p.tree := by
      refine hs.begin (Machine.holds_bindInputs _ hcall.arguments _
        ⟨hcall.subject, fun _ he => absurd he List.not_mem_nil⟩) ?_
      rw [(Machine.bindInputs_fields _ _ _ _).1]
      exact hreach
    have hat : s1.At r (g :: f :: rest) (m1, s.streams) :=
      ⟨congrArg (g :: ·) hm.frames, rfl, hm.reactions, hm.calls, hm.index, rfl, hm.memo⟩
    have hbegun : (s1.evaluations.find? id).isSome = true := by
      rw [Evaluations.find?_begin, if_pos rfl]
      rfl
    have hsteps : g.steps = ((p.tree.calledNodes call.definition provided).flatMap
        p.tree.code).toArray := by
      show p.code.ofCall call.definition provided = _
      rw [hp.code, Code.ofCall_ofTree]
      rfl
    have hbody := body_follows (fun n hn s => hev id n s (hreach.calledNode hn))
      (fun hrest v s' hv position node' hposition hnode' => by
        obtain rfl := hlast position node' hposition hnode'
        exact hkept hrest v s' hv) hsteps rfl rfl hbegun hs1 (m1, s.streams) hat
    have hinside : ¬ m1.inProgram = true := by
      have hf : m1.frames = g :: f :: rest := hat.frames
      simp [Machine.inProgram, hf]
    have hstart : Machine.conclude (s.world p pass) m0 (Machine.attribute (s.world p pass) node
        (.ok (m1, s.streams))) = settled p pass (m1, s.streams) := by
      rw [Machine.attribute, if_neg hinside]
      rfl
    rw [hes]
    exact (hstart ▸ hbody).earlier .refl (Scene.grows_begin s e) (Nat.le_refl _)

/-- Counting a call stops a call too deep or too many, which the recursion only counts. -/
theorem countCall_cases (p : Program) (definition : NodeId) (name : String)
    (hm : s.At r (f :: rest) (m, streams)) (hdepth : depth = rest.length + 1) :
    (∃ kind, m.countCall p.config definition name = .error kind ∧ kind.isLimit = true ∧
        (s.called depth definition).Exceeds p.config) ∨
      ∃ m1, m.countCall p.config definition name = .ok m1 ∧
        (s.called depth definition).At r (f :: rest) (m1, streams) := by
  have hcalls : m.callCounts = s.calls := hm.calls
  have hd : m.depth = depth := by
    have hf : m.frames = f :: rest := hm.frames
    rw [Machine.depth, hf, List.length_cons, hdepth]
  unfold Machine.countCall
  rw [hcalls, hd]
  dsimp only
  split
  · rename_i hlt
    refine .inl ⟨_, rfl, rfl, .inr (.inl ?_)⟩
    exact Nat.lt_of_lt_of_le (Nat.lt_succ_of_le hlt) (Nat.le_max_right _ _)
  · split
    · rename_i hlt
      exact .inl ⟨_, rfl, rfl, .inr (.inr ⟨definition, _, Keyed.lookup_insert_self _ _ _, hlt⟩)⟩
    · exact .inr ⟨_, rfl, hm.frames, hm.evaluations, hm.reactions, rfl, hm.index, hm.streams, hm.memo⟩

theorem call_tracks (node : NodeId) (hp : Prepared p pass)
    {run : EvaluationId → NodeId → Direct Value} {call : Call}
    (hcall : call.Holds (Handle.InTree p.tree))
    (hev : ∀ id node s, p.tree.Reaches node → Evaluates r p pass fuel (run id) id (f :: rest) node s)
    (hlast : f.LastFinished node)
    (hkept : rest = [] → ∀ v s',
      (Direct.call p pass run depth node call).runFrom s = some (.ok v, s') →
        r.allows s'.streams.size node v)
    (hdepth : depth = rest.length + 1) (hs : s.InTree p.tree)
    (hm : s.At r (f :: rest) (m, s.streams)) {m0 : Machine} (hm0 : s.Leaves r m0) :
    Tracks r p pass fuel s (fun v => f.passed 0 [v] :: rest)
      (fun v => v.Holds (Handle.InTree p.tree))
      (Machine.conclude (s.world p pass) m0 (Machine.attribute (s.world p pass) node
        ((m.enter (s.world p pass) call).map fun m => (m, s.streams))))
      ((Direct.call p pass run depth node call).runFrom s) := by
  unfold Direct.call at hkept ⊢
  cases hn : Machine.callName p.tree call with
  | error kind =>
    rw [Machine.enter_nameless (s.world p pass) hn]
    exact tracks_error hm0 rfl _
  | ok name =>
    have hcalled := hs.called depth call.definition
    have hgrows := s.grows_called depth call.definition
    have hleaves : (s.called depth call.definition).Leaves r m0 := ⟨hm0.reactions, hm0.memo⟩
    rw [hn] at hkept
    have hkept' : rest = [] → ∀ v s', (enter p pass run node call).runFrom
        (s.called depth call.definition) = some (.ok v, s') → r.allows s'.streams.size node v :=
      hkept
    obtain ⟨kind, hk, hlimit, hexceeds⟩ | ⟨m1, hk, hm1⟩ :=
      countCall_cases p call.definition name hm hdepth
    · -- the call runs in some machine, but not in this one
      obtain ⟨⟨m1, streams1⟩, hm1⟩ := (s.called depth call.definition).exists_at r (f :: rest)
      obtain rfl : streams1 = s.streams := hm1.streams
      have hentered := entered_tracks node hp hcall hev hlast hkept' hcalled hm1 hleaves
      rw [Machine.enter_stopped (s.world p pass) hn hk]
      exact Tracks.limited hentered
        ⟨⟨kind, node⟩, s, hlimit, 0, ⟨rfl, rfl, rfl, hm0.reactions, rfl⟩, hm0.memo⟩ hgrows hexceeds
    · rw [Machine.enter_counted (s.world p pass) hn hk]
      exact (entered_tracks node hp hcall hev hlast hkept' hcalled hm1 hleaves).earlier .refl hgrows
        (Nat.le_refl _)

/-! ## Whole nodes -/

theorem tracks_attributed {s0 s' : Scene} (m0 : Machine) {after : Value → List Frame}
    {holds : Value → Prop} {v : Value} (grows : s.Grows s') (inTree : s'.InTree p.tree)
    (value : holds v) (hafter : after v = f.passed (n + 1) [v] :: rest)
    (there : s'.At r (after v) (m, streams)) (hkept : rest = [] → r.allows s'.streams.size node v) :
    Tracks r p pass fuel s after holds (Machine.conclude (s0.world p pass) m0
      (Machine.attribute (s0.world p pass) node (.ok (m, streams)))) (some (.ok v, s')) := by
  obtain rfl : streams = s'.streams := there.streams
  refine tracks_ok m0 grows inTree value ?_
  rw [hafter] at there ⊢
  split
  · rename_i hin
    refine there.remember (hkept ?_) _
    have hf : m.frames = f.passed (n + 1) [v] :: rest := there.frames
    rw [Machine.inProgram, hf] at hin
    simpa using hin
  · exact there

theorem perform_stream (p : Program) (pass : Pass) (s : Scene) (node : NodeId) (kind : StreamKind)
    (inputs : List Value) :
    let opened := s.streams.createOrReuse kind node inputs pass.number p.config
    m.perform (s.world p pass) node (.stream kind inputs) =
      .ok (m.push (.stream opened.1), opened.2) := by
  have hopen : Machine.openStream (s.world p pass) kind node inputs =
      s.streams.createOrReuse kind node inputs pass.number p.config := by
    unfold Machine.openStream Streams.createOrReuse
    rfl
  simp only [Machine.perform, hopen]

theorem perform_run (w : World) (call : Call) :
    m.perform w node (.run call) = (m.enter w call).map fun m => (m, w.streams) := by
  show (m.enter w call >>= fun m => pure (m, w.streams)) = _
  cases m.enter w call <;> rfl

/-- What a node does with its operands happens to the machine as it does to the scene. -/
theorem finish_follows (hp : Prepared p pass) {run : EvaluationId → NodeId → Direct Value}
    (hev : ∀ id node s, p.tree.Reaches node → Evaluates r p pass fuel (run id) id
      (f.passed (n + 1) [] :: rest) node s)
    (hkept : rest = [] → ∀ v s',
      (Direct.finish p pass run depth f.evaluation node operands).runFrom s = some (.ok v, s') →
        r.allows s'.streams.size node v)
    (hdepth : depth = rest.length + 1) (hreach : p.tree.Reaches node)
    (hn : (f.passed n operands.reverse).next? = some (.finish node))
    (hlen : operands.length = (p.tree.construct node).valueCount)
    (hops : ∀ v ∈ operands, v.Holds (Handle.InTree p.tree)) :
    Follows r p pass fuel (Direct.finish p pass run depth f.evaluation node operands) s
      (f.passed n operands.reverse :: rest) (fun v => f.passed (n + 1) [v] :: rest)
      (fun v => v.Holds (Handle.InTree p.tree)) := by
  intro hs c hc
  refine tracks_step hc hn (Nat.le_succ fuel) fun m hm => ?_
  have hm' : s.spent.At r (f.passed (n + 1) operands.reverse :: rest) (m, s.streams) := by
    simpa using hm
  obtain ⟨hout, htaken⟩ := operands_taken (w := s.world p pass) hm' hlen
  have hes : m.evaluations = s.evaluations := hm.evaluations
  have hcur : m.current = f.evaluation := hm.current
  rw [Machine.execute_finish, Machine.finishNode_eq, hes, hcur]
  generalize m.pop ((s.world p pass).tree.construct node).operandCount = taken at hout htaken ⊢
  have hlast : (f.passed (n + 1) []).LastFinished node := by
    intro position node' hposition hnode'
    obtain rfl : position = f.position + n := by
      have : f.position + (n + 1) = position + 1 := hposition
      omega
    have hstep : f.steps[f.position + n]? = some (.finish node) := hn
    rw [show (f.passed (n + 1) []).steps = f.steps from rfl, hstep] at hnode'
    cases hnode'
    rfl
  unfold Direct.finish at hkept ⊢
  rw [runFrom_bind_ok runFrom_spend, runFrom_bind_ok runFrom_get] at hkept ⊢
  change (s.world p pass).outcome s.evaluations f.evaluation node _ =
    (s.world p pass).outcome s.evaluations f.evaluation node operands at hout
  change ∀ o, (s.world p pass).outcome s.evaluations f.evaluation node operands = .ok o → _ at htaken
  change rest = [] → ∀ v s', ((orFail node
    ((s.world p pass).outcome s.evaluations f.evaluation node operands) >>= _).runFrom
      s.spent) = _ → _ at hkept
  show Tracks r p pass fuel _ _ _ _
    ((orFail node ((s.world p pass).outcome s.evaluations f.evaluation node operands) >>= _).runFrom
      s.spent)
  rw [hout]
  cases houtcome : (s.world p pass).outcome s.evaluations f.evaluation node operands with
  | error kind => exact tracks_error hm.leaves rfl _
  | ok o =>
    rw [houtcome] at hkept
    have ho := World.outcome_holds (hp.wellFormed.allows (w := s.world p pass) hs.definitions hreach)
      hs.streams hs.evaluations hops houtcome
    obtain ⟨rfl, v, rfl, hat⟩ | ⟨hne, hat⟩ := htaken o houtcome
    · exact tracks_attributed m (.refl _) hs.spent (hops v (by simp)) rfl hat
        fun hrest => hkept hrest _ _ rfl
    · cases o with
      | keep => exact absurd rfl hne
      | value v => 
        exact tracks_attributed m (.refl _) hs.spent ho rfl (by simpa using hat.push v)
          fun hrest => hkept hrest _ _ rfl
      | named name v =>
        refine tracks_attributed m (Scene.grows_bind _ f.evaluation name v)
          (hs.spent.bind _ _ ho) ho rfl ?_ fun hrest => hkept hrest _ _ rfl
        simpa using (hat.bind name v).push v
      | reaction v =>
        refine tracks_attributed m (Scene.grows_reacted _ node v) (hs.spent.reacted node v) ho
          rfl ?_ fun hrest => hkept hrest _ _ rfl
        simpa using (hat.reacted node v).push v
      | stream kind inputs =>
        have hopened := perform_stream (m := taken.2) p pass s node kind inputs
        show Tracks r p pass fuel _ _ _ (Machine.conclude (s.world p pass) m (Machine.attribute
          (s.world p pass) node (taken.2.perform (s.world p pass) node (.stream kind inputs)))) _
        rw [hopened]
        exact tracks_attributed m (Scene.grows_withStreams _ _)
          (hs.spent.createOrReuse kind node inputs pass.number p.config)
          ((Value.holds_stream _).2 trivial) rfl
          ((hat.withStreams (Streams.size_createOrReuse _ _ _ _ _ _)).push _)
          fun hrest => hkept hrest _ _ rfl
      | run call =>
        have hcall := call_tracks node hp ho hev hlast hkept hdepth hs.spent hat hm.leaves
        simp only [Frame.passed_passed, Nat.add_zero, List.append_nil] at hcall
        show Tracks r p pass fuel _ _ _ (Machine.conclude (s.world p pass) m (Machine.attribute
          (s.world p pass) node (taken.2.perform (s.world p pass) node (.run call)))) _
        rw [perform_run]
        exact hcall

theorem startNode_none {w : World}
    (h : (if m.inProgram then Machine.memoized? w node else none) = none) :
    m.startNode w node = m :=
  Machine.startNode_eq_self fun hin => by rwa [if_pos hin] at h

/-- A value of the pass before takes the place of the node's steps. -/
theorem startNode_some {w : World} {v : Value}
    (h : (if m.inProgram then Machine.memoized? w node else none) = some v)
    (hv : rest = [] → r.allows streams.size node v) (hm : s.At r (f :: rest) (m, streams)) :
    s.At r (f.passed (w.program.code.length node - 1) [v] :: rest) (m.startNode w node, streams) := by
  split at h
  · rename_i hin
    unfold Machine.startNode
    rw [if_pos hin, h]
    have hrest : rest = [] := by
      have hf : m.frames = f :: rest := hm.frames
      rw [Machine.inProgram, hf] at hin
      simpa using hin
    have hskip := hm.skip (w.program.code.length node - 1)
    simpa using (hskip.withMemo (hskip.memo_insert (hv hrest))).push v
  · cases h

/-- The machine does with every node what the recursion does, and remembers of the program's own
nodes the values that they have there. -/
theorem evaluate_follows (hp : Prepared p pass) {reuse : NodeId → Option Value}
    (hreuse : ∀ streams node, Machine.memoized? ⟨p, pass, streams, false⟩ node = reuse node)
    {first : Streams} {current : EvaluationId} (hdepth : depth = rest.length + 1)
    (hreach : p.tree.Reaches node)
    (hvisits : rest = [] → current = .root ∧ Visits p pass reuse first node s) :
    Evaluates (recallOf p pass reuse first) p pass fuel (evaluate p pass reuse fuel depth current)
      current rest node s := by
  induction fuel generalizing depth current rest node s with
  | zero =>
    rintro f hr rfl hs c hc
    rw [hp.wellFormed.code_eq hreach] at hr
    obtain ⟨m, -, hlimit, -⟩ := settled_leads (p := p) hc hr.next?
    exact .outOfFuel fun h => hlimit (Nat.lt_succ_of_lt h)
  | succ fuel ih =>
    rintro f hr rfl hs c hc
    have hcode := hp.wellFormed.code_eq hreach
    have hlength : p.code.length node = (p.tree.code node).length := by
      rw [hp.code, Code.length_ofTree]
    rw [hcode] at hr hlength ⊢
    have hinner := hr.part [.start node] (p.tree.innerCode p.tree.code node) [.finish node]
      (n := 1) (by simp) rfl
    have hfinish := hr.part (.start node :: p.tree.innerCode p.tree.code node) [.finish node] []
      (n := 1 + (p.tree.innerCode p.tree.code node).length) (by simp) (by simp; omega)
    refine tracks_step hc hr.next? (Nat.le_refl (fuel + 1)) fun m hm => ?_
    have hvalue : (if m.inProgram then Machine.memoized? (s.world p pass) node else none) =
        if depth = 1 then reuse node else none := by
      have hf : m.frames = f.passed 1 [] :: rest := hm.frames
      have hin : m.inProgram = decide (depth = 1) := by
        simp [Machine.inProgram, hf, hdepth]
      rw [hin, ← hreuse s.streams node]
      simp
      rfl
    have hone : rest = [] → depth = 1 := by
      rintro rfl
      exact hdepth
    -- what the recursion gives in the program's own evaluation may be remembered
    have hkept : rest = [] → ∀ v s',
        (evaluate p pass reuse (fuel + 1) depth f.evaluation node).runFrom s = some (.ok v, s') →
          (recallOf p pass reuse first).allows s'.streams.size node v := by
      intro hrest v s' hv
      obtain ⟨hcurrent, hvisit⟩ := hvisits hrest
      rw [hone hrest, hcurrent] at hv
      exact ⟨fuel + 1, s, s', hvisit, hv, Nat.le_refl _⟩
    unfold evaluate at hkept ⊢
    rw [runFrom_bind_ok runFrom_spend] at hkept ⊢
    rw [Machine.execute]
    cases hreused : if depth = 1 then reuse node else none with
    | some v =>
      rw [hreused] at hvalue hkept
      have hv : v.Holds (Handle.InTree p.tree) := by
        have hr : reuse node = some v := by
          split at hreused
          · exact hreused
          · cases hreused
        rw [← hreuse s.streams node] at hr
        exact hp.pass.memo _ (Machine.memoized?_mem hr)
      refine tracks_ok m (.refl _) hs.spent hv ?_
      have hstart : s.spent.At _ _ (_, s.streams) :=
        startNode_some hvalue (fun hrest => hkept hrest v s.spent rfl) hm
      rw [Scene.world_program, hlength] at hstart
      simpa [Nat.add_comm] using hstart
    | none =>
      rw [hreused] at hvalue hkept
      rw [startNode_none hvalue]
      have hchild : ∀ child s', Before p pass (evaluate p pass reuse fuel depth f.evaluation)
          f.evaluation node s.spent child s' → rest = [] →
            f.evaluation = .root ∧ Visits p pass reuse first child s' := by
        intro child s' hbefore hrest
        obtain ⟨hcurrent, hvisit⟩ := hvisits hrest
        rw [if_pos (hone hrest)] at hreused
        rw [hone hrest, hcurrent] at hbefore
        exact ⟨hcurrent, .child hvisit hreused hbefore⟩
      have hoperands := operandsOf_follows (s := s.spent) (f := f.passed 1 []) hp
        (fun child s' hb => ih hdepth (hreach.child hb.mem) (hchild child s' hb)) (hinner [])
      refine (hoperands.bind fun operands s1 hrun _ ho => ?_) hs.spent (m, s.streams) hm
      have hf := finish_follows (s := s1) hp
        (fun id node s h => ih (Nat.succ_inj.2 hdepth) h fun hrest => absurd hrest (by simp))
        (fun hrest v s' hv => hkept hrest v s' ((runFrom_bind_ok hrun _).trans hv)) hdepth hreach
        (hfinish operands.reverse).next? ho.1 ho.2
      simpa [Nat.add_comm] using hf

end ReactiveLang
