import ReactiveLang.Eval.Machine

/-!
# Evaluation by recursion

What a pass does, said by recursion over the nodes, without code, jumps, frames or stacks of values.
A node's children are evaluated in their order; a condition chooses one branch, and a reaction its
initial value or its condition; a call evaluates the defaults of the inputs that were left out and
then the body, in a new evaluation.

`Scene` also counts what was done, so that it can be compared with the limits of a program
(`Scene.Exceeds`); nothing is ever stopped by the count. Programs need not end: `evaluate` has no
result when its fuel runs out, which is the depth of the recursion.
-/

namespace ReactiveLang

/-- What a pass has changed, and how much it has done. -/
structure Scene where
  evaluations : Evaluations
  streams : Streams
  /-- The values of reactions in this pass. -/
  reactions : List (NodeId × Value)
  /-- One for the start and one for the finish of a node, one for every choice, and one where what
  was not chosen is left behind. -/
  steps : Nat
  /-- Evaluations that wait for each other, the program's included, at the deepest call. -/
  deepest : Nat
  /-- How often each definition was called. -/
  calls : List (NodeId × Nat)

namespace Scene

/-- More was done than the settings of a program allow. -/
def Exceeds (config : Config) (s : Scene) : Prop :=
  config.maxSteps < s.steps ∨ config.maxCallDepth < s.deepest ∨
    ∃ definition count, s.calls.lookup definition = some count ∧ config.maxEvaluations < count

instance (config : Config) (s : Scene) : Decidable (s.Exceeds config) :=
  decidable_of_iff (config.maxSteps < s.steps ∨ config.maxCallDepth < s.deepest ∨
      ∃ e ∈ s.calls, s.calls.lookup e.1 = some e.2 ∧ config.maxEvaluations < e.2) <| by
    refine or_congr Iff.rfl (or_congr Iff.rfl ⟨?_, ?_⟩)
    · rintro ⟨e, -, hl, hlt⟩
      exact ⟨e.1, e.2, hl, hlt⟩
    · rintro ⟨definition, count, hl, hlt⟩
      exact ⟨(definition, count), Keyed.mem_of_lookup hl, hl, hlt⟩

/-- What a node looks at besides its evaluation. -/
def world (p : Program) (pass : Pass) (s : Scene) : World := ⟨p, pass, s.streams, false⟩

section
variable (p : Program) (pass : Pass) (s : Scene)

@[simp] theorem world_program : (s.world p pass).program = p := rfl

@[simp] theorem world_pass : (s.world p pass).pass = pass := rfl

@[simp] theorem world_streams : (s.world p pass).streams = s.streams := rfl

@[simp] theorem world_tree : (s.world p pass).tree = p.tree := rfl

end

/-- One step more. -/
def spent (s : Scene) : Scene := { s with steps := s.steps + 1 }

/-- Binds a name in an evaluation. -/
def bind (s : Scene) (current : EvaluationId) (name : String) (v : Value) : Scene :=
  { s with evaluations := Evaluations.bind s.evaluations current name v }

/-- A reaction has a value in this pass. -/
def reacted (s : Scene) (node : NodeId) (v : Value) : Scene :=
  { s with reactions := Keyed.insert node v s.reactions }

/-- One call more, in so many evaluations that wait for it. -/
def called (s : Scene) (depth : Nat) (definition : NodeId) : Scene :=
  { s with
    deepest := max s.deepest (depth + 1)
    calls := Keyed.insert definition ((s.calls.lookup definition).getD 0 + 1) s.calls }

/-- Before a pass: the program's own evaluation has begun. -/
def start (p : Program) (streams : Streams) : Scene where
  evaluations := (Evaluations.begin .empty (.start .program p.tree.root none)).2
  streams
  reactions := []
  steps := 0
  deepest := 0
  calls := []

end Scene

/-- A computation that changes a scene. It gives a value or fails; without a result, its fuel has run
out. -/
abbrev Direct (α : Type) := ExceptT Failure (StateT Scene Option) α

namespace Direct

variable {α : Type}

/-- The result of a computation in a scene, and the scene after it. -/
def runFrom (x : Direct α) (s : Scene) : Option (Except Failure α × Scene) := x.run.run s

def outOfFuel : Direct α := ExceptT.mk (StateT.mk fun _ => none)

/-- Takes what is there, or fails at a node. -/
def orFail (node : NodeId) (x : Except (ExceptionKind Value) α) : Direct α :=
  match x with
  | .ok a => pure a
  | .error kind => throw ⟨kind, node⟩

def spend : Direct Unit := modify Scene.spent

section
variable (p : Program) (pass : Pass)

/-- The boolean that a condition has come out as. -/
def decision (node : NodeId) (v : Value) : Direct Bool := do
  spend
  let s ← get
  match (s.world p pass).seen v with
  | .boolean b => return b
  | other => throw ⟨.typeMismatch .boolean other, node⟩

/-- What a call gives when its nodes have these values: an instance, or the last value. -/
def resultOf (kind : EvaluationKind) (id : EvaluationId) (values : List Value) : Direct Value := do
  let s ← get
  if kind = .structureDef then return .instanceOf (s.evaluations.instanceAt p.tree id)
  else return (s.world p pass).seen (values.getLast?.getD .nothing)

/-- Runs a call that has been counted, in a new evaluation with the inputs; `run` evaluates a node
in an evaluation. -/
def enter (run : EvaluationId → NodeId → Direct Value) (node : NodeId) (c : Call) :
    Direct Value := do
  let inputs := if c.kind = .conversion then [] else p.tree.inputsOf c.definition
  let provided := min c.arguments.length inputs.length
  match (inputs.drop provided).findSome? (Machine.requiredName? p.tree) with
  | some missing => throw ⟨.valueRequired missing, node⟩
  | none =>
    let s ← get
    let (id, evaluations) := s.evaluations.begin (Machine.bindInputs p.tree inputs c.arguments
      { Evaluation.start c.kind c.definition (some c.closure) with subject := c.subject })
    set { s with evaluations }
    let values ← (p.tree.calledNodes c.definition provided).mapM (run id)
    resultOf p pass c.kind id values

/-- Runs a call that a node makes. -/
def call (run : EvaluationId → NodeId → Direct Value) (depth : Nat) (node : NodeId) (c : Call) :
    Direct Value := do
  let _ ← orFail node (Machine.callName p.tree c)
  modify fun s => s.called depth c.definition
  enter p pass run node c

/-- Finishes a node in an evaluation, when it has its operands. -/
def finish (run : EvaluationId → NodeId → Direct Value) (depth : Nat) (current : EvaluationId)
    (node : NodeId) (operands : List Value) : Direct Value := do
  spend
  let s ← get
  let outcome ← orFail node ((s.world p pass).outcome s.evaluations current node operands)
  match outcome with
  | .keep => return World.operand operands 0
  | .value v => return v
  | .named name v =>
    set (s.bind current name v)
    return v
  | .reaction v =>
    set (s.reacted node v)
    return v
  | .stream kind inputs =>
    let (id, streams) := s.streams.createOrReuse kind node inputs pass.number p.config
    set { s with streams }
    return .stream id
  | .run c => call p pass run depth node c

/-- The value that a reaction had in the pass before, which is bound to its name. -/
def previousOf (current : EvaluationId) (node : NodeId) : Direct (Option Value) := do
  spend
  match pass.reactions.lookup node with
  | none => return none
  | some previous =>
    match Machine.boundName? p.tree node with
    | some name => modify fun s => s.bind current name previous
    | none => pure ()
    return some previous

/-- The operands of a node: the values of its children, of those that are evaluated. -/
def operandsOf (eval : NodeId → Direct Value) (current : EvaluationId) (node : NodeId) :
    Direct (List Value) :=
  match p.tree.construct node with
  | .conditional condition yes no => do
    let v ← eval condition
    if ← decision p pass node v then
      let v ← eval yes
      spend
      return [v]
    else
      let v ← eval no
      return [v]
  | .reaction initial condition next => do
    match ← previousOf p pass current node with
    | none =>
      let v ← eval initial
      spend
      return [v]
    | some previous =>
      let v ← eval condition
      if ← decision p pass node v then
        let v ← eval next
        return [v]
      else return [previous]
  | .functionDef _ _ _ _ => return []
  | .structureDef _ _ _ => return []
  | .conversionDef _ _ _ => return []
  | construct => construct.children.mapM eval

/-- Evaluates a node in an evaluation. The program's own nodes, at depth one, need not be evaluated
where `reuse` has a value for them; `fun _ => none` has none. -/
def evaluate (reuse : NodeId → Option Value) : Nat → Nat → EvaluationId → NodeId → Direct Value
  | 0, _, _, _ => outOfFuel
  | fuel + 1, depth, current, node => do
    spend
    match if depth = 1 then reuse node else none with
    | some v => return v
    | none =>
      let operands ← operandsOf p pass (evaluate reuse fuel depth current) current node
      finish p pass (evaluate reuse fuel (depth + 1)) depth current node operands

/-- Evaluates the whole program. -/
def evaluateProgram (reuse : NodeId → Option Value) (fuel : Nat) : Direct Value := do
  let v ← evaluate p pass reuse fuel 1 .root p.tree.root
  let s ← get
  return (s.world p pass).seen v

end

/-! ## How computations run -/

variable {β : Type} {s : Scene}

@[simp] theorem runFrom_pure (a : α) : (pure a : Direct α).runFrom s = some (.ok a, s) := rfl

@[simp] theorem runFrom_throw (f : Failure) : (throw f : Direct α).runFrom s = some (.error f, s) := rfl

@[simp] theorem runFrom_get : (get : Direct Scene).runFrom s = some (.ok s, s) := rfl

@[simp] theorem runFrom_set (s' : Scene) : (set s' : Direct PUnit).runFrom s = some (.ok ⟨⟩, s') := rfl

@[simp] theorem runFrom_modify (f : Scene → Scene) :
    (modify f : Direct PUnit).runFrom s = some (.ok ⟨⟩, f s) := rfl

@[simp] theorem runFrom_spend : spend.runFrom s = some (.ok (), s.spent) := rfl

@[simp] theorem runFrom_outOfFuel : (outOfFuel : Direct α).runFrom s = none := rfl

theorem runFrom_bind (x : Direct α) (f : α → Direct β) :
    (x >>= f).runFrom s = match x.runFrom s with
      | none => none
      | some (.error e, s') => some (.error e, s')
      | some (.ok a, s') => (f a).runFrom s' := by
  show (x.run >>= ExceptT.bindCont f).run s = _
  rw [StateT.run_bind]
  unfold runFrom
  cases x.run.run s with
  | none => rfl
  | some r =>
    obtain ⟨e | a, s'⟩ := r <;> rfl

theorem runFrom_bind_ok {x : Direct α} {a : α} {s' : Scene} (h : x.runFrom s = some (.ok a, s'))
    (f : α → Direct β) : (x >>= f).runFrom s = (f a).runFrom s' := by
  rw [runFrom_bind, h]

end Direct
end ReactiveLang
