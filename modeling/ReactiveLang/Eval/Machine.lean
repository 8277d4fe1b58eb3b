import ReactiveLang.Eval.Outcome

/-!
# The machine

A machine is the whole state of a pass between two steps: a stack of frames, each running one
sequence of steps on values of its own, and the evaluations begun so far. `Machine.step` takes one
step; a machine that has finished takes none.
-/

namespace ReactiveLang

/-- Where a pass is. Mirrors quill-eval/machine:32-39. -/
inductive Status where
  /-- No step was taken yet. -/
  | ready
  | running
  /-- It has ended in a failure. -/
  | exception
  | completed
  deriving DecidableEq, Inhabited

namespace Status

def all : List Status := [ready, running, exception, completed]

def name : Status → String
  | ready => "Ready"
  | running => "Running"
  | exception => "Exception"
  | completed => "Completed"

def ofName? (name : String) : Option Status := all.find? fun s => s.name = name

end Status

/-- Mirrors quill-eval/machine:67-73. -/
structure Frame where
  kind : EvaluationKind
  steps : Array Step
  /-- The number of the step that is next. -/
  position : Nat
  /-- The values that wait for the nodes that take them, the newest first. -/
  values : List Value
  evaluation : EvaluationId
  deriving Inhabited

namespace Frame

variable (f : Frame)

def next? : Option Step := f.steps[f.position]?

def isDone : Bool := f.steps.size ≤ f.position

def skip (count : Nat) : Frame := { f with position := f.position + count }

def push (v : Value) : Frame := { f with values := v :: f.values }

/-- Takes the newest values, as many as are asked for, and gives them oldest first. Mirrors
quill-eval/machine:248-262 (`pop_values`), before streams are read. -/
def pop (count : Nat) : List Value × Frame :=
  let taken := f.values.take count
  ((taken ++ List.replicate (count - taken.length) Value.nothing).reverse,
    { f with values := f.values.drop count })

end Frame

/-- Mirrors quill-eval/machine:78-90. -/
structure Machine where
  /-- The frame that runs comes first. -/
  frames : List Frame
  evaluations : Evaluations
  status : Status
  result : Option Value
  /-- Steps taken. -/
  index : Nat
  /-- How often each definition was called. -/
  callCounts : List (NodeId × Nat)
  /-- The values of reactions in this pass. -/
  reactions : List (NodeId × Value)
  /-- Values of the program's own nodes that a later pass may use. -/
  memo : List (NodeId × Value)
  deriving Inhabited

namespace Machine

/-- The machine before the first step of a pass. Mirrors quill-eval/machine:93-114 (`new`). -/
def start (p : Program) : Machine :=
  let (root, evaluations) := Evaluations.begin .empty (.start .program p.tree.root none)
  { frames := [⟨.program, p.code.ofNode p.tree.root, 0, [], root⟩]
    evaluations
    status := .ready
    result := none
    index := 0
    callCounts := []
    reactions := []
    memo := [] }

variable (m : Machine)

def isFinished : Bool := m.status = .completed || m.status = .exception

def depth : Nat := m.frames.length

/-- The newest value of the frame that runs, or the result. Mirrors quill-eval/machine:139-144
(`current_value`). -/
def currentValue? : Option Value :=
  match m.frames with
  | f :: _ => f.values.head?
  | [] => m.result

/-- The step that comes next. Mirrors quill-eval/machine:147-150 (`next_step`). -/
def next? : Option Step := m.frames.head?.bind Frame.next?

/-- Only the program's own frame is there. Mirrors quill-eval/machine:235-237 (`in_root_frame`). -/
def inProgram : Bool := m.frames.length = 1

/-- The evaluation of the frame that runs. -/
def current : EvaluationId := (m.frames.head?.map fun f => f.evaluation).getD .root

/-- Changes the frame that runs. -/
def withFrame (change : Frame → Frame) : Machine :=
  match m.frames with
  | f :: rest => { m with frames := change f :: rest }
  | [] => m

def skip (count : Nat) : Machine := m.withFrame fun f => f.skip count

def push (v : Value) : Machine := m.withFrame fun f => f.push v

/-- Takes the newest values of the frame that runs, oldest first. -/
def pop (count : Nat) : List Value × Machine :=
  match m.frames with
  | f :: rest =>
    let (values, f) := f.pop count
    (values, { m with frames := f :: rest })
  | [] => (List.replicate count Value.nothing, m)

/-- Binds a name in the evaluation of the frame that runs. -/
def bind (name : String) (v : Value) : Machine :=
  { m with evaluations := Evaluations.bind m.evaluations m.current name v }

/-- Ends the pass with a failure. Mirrors quill-eval/machine:268-276 (`fail`). -/
def fail (f : Failure) : Machine :=
  { m with frames := [], status := .exception, result := some f.toValue }

/-! ## Values that outlive the pass -/

/-- Keeps the value that a node of the program's own frame has just given, if a later pass may use
it. Mirrors quill-eval/machine:318-328 (`remember`). -/
def remember (w : World) (node : NodeId) : Machine :=
  match m.currentValue? with
  | some v =>
    if w.program.analysis.isMemoizable node && v.isPortable then
      { m with memo := Keyed.insert node v m.memo }
    else m
  | none => m

/-- Always read anew: its value depends on what started the pass. Mirrors
quill-eval/machine:342-345. -/
def isPassDependent (t : Tree) (id : NodeId) : Bool :=
  match t.construct id with
  | .reaction _ _ _ => true
  | .changed _ => true
  | _ => false

/-- The value that a node had in the pass before, if nothing it depends on has changed. Mirrors
quill-eval/machine:333-348 (`memoized`). -/
def memoized? (w : World) (node : NodeId) : Option Value :=
  match w.pass.memo.lookup node with
  | none => none
  | some v =>
    if !w.program.analysis.isMemoizable node then none
    else if (w.program.analysis.streamDependencies node).any fun dependency =>
        w.pass.changedCreators.contains dependency || isPassDependent w.tree dependency then none
    else some v

/-- Starts a node: in the program's own frame, a value of the pass before may take its place.
Mirrors quill-eval/machine:350-361 (`start`). -/
def startNode (w : World) (node : NodeId) : Machine :=
  if m.inProgram then
    match memoized? w node with
    | some v =>
      let m := m.skip (w.program.code.length node - 1)
      { m with memo := Keyed.insert node v m.memo }.push v
    | none => m
  else m

/-! ## Reactions -/

/-- The name that the bind around a node gives. Mirrors quill-eval/machine:372. -/
def boundName? (t : Tree) (node : NodeId) : Option String :=
  match (t.parent? node).map t.construct with
  | some (.binding name _ _) => some name
  | _ => none

/-- A reaction that had a value in the pass before binds it to its name and goes on to its
condition. Mirrors quill-eval/machine:365-380 (`check`). -/
def checkReaction (w : World) (node : NodeId) : Machine :=
  match w.pass.reactions.lookup node with
  | none => m
  | some previous =>
    let m := match boundName? w.tree node with
      | some name => m.bind name previous
      | none => m
    match w.tree.construct node with
    | .reaction initial _ _ => m.skip (w.program.code.length initial + 1)
    | _ => m

/-- Whether the steps after a jump of a node are those of a reaction that keeps its value. -/
def isReaction (t : Tree) (node : NodeId) : Bool :=
  match t.construct node with
  | .reaction _ _ _ => true
  | _ => false

/-- Takes a boolean and jumps if it is `when`. A reaction whose condition fails has the value it had
before. Mirrors quill-eval/machine:200-214. -/
def branch (w : World) (node : NodeId) (count : Nat) (when : Bool) : Except Failure Machine :=
  let (operands, m) := m.pop 1
  match w.seen (World.operand operands 0) with
  | .boolean b =>
    if b = when then
      let m := m.skip count
      if isReaction w.tree node then
        .ok (m.push ((w.pass.reactions.lookup node).getD .nothing))
      else .ok m
    else .ok m
  | other => .error ⟨.typeMismatch .boolean other, node⟩

/-! ## Calls -/

/-- How a definition is called in messages. Mirrors quill-eval/machine:673-687. -/
def callName (t : Tree) (call : Call) : Except (ExceptionKind Value) String :=
  match call.kind with
  | .conversion => .ok "→"
  | kind =>
    match t.construct call.definition with
    | .functionDef name _ _ body =>
      if kind = .function && body.isNone then .error (.valueRequired name) else .ok name
    | .structureDef name _ body =>
      if kind = .function && body.isNone then .error (.valueRequired name) else .ok name
    | _ => .error .unparsable

/-- Counts a call, unless there are too many frames or calls of the definition. Mirrors
quill-eval/machine:640-659 (`admit`). -/
def countCall (config : Config) (definition : NodeId) (name : String) :
    Except (ExceptionKind Value) Machine :=
  let count := (m.callCounts.lookup definition).getD 0 + 1
  if config.maxCallDepth ≤ m.depth then .error .callDepthLimit
  else if config.maxEvaluations < count then .error (.evaluationLimit name)
  else .ok { m with callCounts := Keyed.insert definition count m.callCounts }

/-- Binds the inputs that are given, as far as there are arguments. Mirrors
quill-eval/machine:692-696. -/
def bindInputs (t : Tree) : List NodeId → List Value → Evaluation → Evaluation
  | input :: inputs, v :: arguments, e =>
    match (t.construct input).definedName? with
    | some name => bindInputs t inputs arguments (e.bind name v)
    | none => bindInputs t inputs arguments e
  | _, _, e => e

/-- The name of an input that has to be given. Mirrors quill-eval/machine:697-704. -/
def requiredName? (t : Tree) (input : NodeId) : Option String :=
  match t.construct input with
  | .binding name _ none => some name
  | _ => none

/-- Begins a call: a new frame on top, with an evaluation that has the inputs. Mirrors
quill-eval/machine:662-719 (`enter`) and 721-748 (`enter_conversion`). -/
def enter (w : World) (call : Call) : Except (ExceptionKind Value) Machine := do
  let name ← callName w.tree call
  let m ← m.countCall w.program.config call.definition name
  let inputs := if call.kind = .conversion then [] else w.tree.inputsOf call.definition
  let provided := min call.arguments.length inputs.length
  match (inputs.drop provided).findSome? (requiredName? w.tree) with
  | some missing => throw (.valueRequired missing)
  | none =>
    let evaluation : Evaluation :=
      { Evaluation.start call.kind call.definition (some call.closure) with subject := call.subject }
    let (id, evaluations) :=
      m.evaluations.begin (bindInputs w.tree inputs call.arguments evaluation)
    let frame : Frame := ⟨call.kind, w.program.code.ofCall call.definition provided, 0, [], id⟩
    return { m with evaluations, frames := frame :: m.frames }

/-! ## Steps -/

/-- The stream of a call. A step that is taken again leaves its settings alone. Mirrors
quill-eval/machine:625-635. -/
def openStream (w : World) (kind : StreamKind) (node : NodeId) (inputs : List Value) :
    StreamId × Streams :=
  match w.streams.createdBy? node with
  | some id => if w.replaying then (id, w.streams) else (id, w.streams.configure id inputs)
  | none => w.streams.create kind node inputs w.pass.number w.program.config

/-- Does what a node's operands ask for. Mirrors quill-eval/machine:384-538 (`finish`), the part
after a node's operands are read. -/
def perform (w : World) (node : NodeId) :
    Outcome → Except (ExceptionKind Value) (Machine × Streams)
  | .keep => .ok (m, w.streams)
  | .value v => .ok (m.push v, w.streams)
  | .named name v => .ok ((m.bind name v).push v, w.streams)
  | .reaction v => .ok ({ m with reactions := Keyed.insert node v m.reactions }.push v, w.streams)
  | .stream kind inputs =>
    let (id, streams) := openStream w kind node inputs
    .ok (m.push (.stream id), streams)
  | .run call => do
    let m ← m.enter w call
    return (m, w.streams)

/-- Finishes a node: takes its operands and does what they ask for. Mirrors
quill-eval/machine:384-538 (`finish`). -/
def finishNode (w : World) (node : NodeId) : Except (ExceptionKind Value) (Machine × Streams) :=
  let (operands, m) := m.pop (w.tree.construct node).operandCount
  match w.outcome m.evaluations m.current node operands with
  | .ok outcome => m.perform w node outcome
  | .error kind => .error kind

/-- The effect of one step, before frames that are done are left. Mirrors quill-eval/machine:186-223
(`execute`). -/
def execute (w : World) : Step → Except Failure (Machine × Streams)
  | .start node => .ok (m.startNode w node, w.streams)
  | .check node => .ok (m.checkReaction w node, w.streams)
  | .jump _ count => .ok (m.skip count, w.streams)
  | .jumpIf node count when =>
    match m.branch w node count when with
    | .ok m => .ok (m, w.streams)
    | .error failure => .error failure
  | .finish node =>
    match m.finishNode w node with
    | .ok (m, streams) => .ok (if m.inProgram then m.remember w node else m, streams)
    | .error kind => .error ⟨kind, node⟩

/-- What a frame that is done gives to its caller: an instance, or its newest value. Mirrors
quill-eval/machine:288-295. -/
def frameResult (w : World) (f : Frame) : Value :=
  if f.kind = .structureDef then .instanceOf (m.evaluations.instanceAt w.tree f.evaluation)
  else w.seen (f.values.headD .nothing)

/-- The program's own frame has got the value of a call: the node that made the call has it now.
Mirrors quill-eval/machine:299-304. -/
def rememberCall (w : World) (caller : Frame) : Machine :=
  match caller.position with
  | 0 => m
  | position + 1 =>
    match caller.steps[position]? with
    | some (.finish node) => m.remember w node
    | _ => m

/-- Leaves the frames that are done, from the one that runs on, and hands the value of each to the
one below it. Mirrors quill-eval/machine:280-312 (`complete_frames`). -/
def leave (w : World) (f : Frame) : List Frame → Machine → Machine
  | [], m =>
    if f.isDone then
      { m with frames := [], status := .completed, result := some (m.frameResult w f) }
    else { m with frames := [f] }
  | caller :: rest, m =>
    if f.isDone then
      let caller := caller.push (m.frameResult w f)
      let m := { m with frames := caller :: rest }
      leave w caller rest (if rest.isEmpty then m.rememberCall w caller else m)
    else { m with frames := f :: caller :: rest }

/-- Leaves all frames that are done. Mirrors quill-eval/machine:280-312 (`complete_frames`). -/
def settle (w : World) : Machine :=
  match m.frames with
  | f :: rest => leave w f rest m
  | [] => m

/-- Takes the next step, and gives it with the machine and the streams after it. There is none once
the pass is finished. Mirrors quill-eval/machine:163-184 (`step`). -/
def step (w : World) : Option (Step × Machine × Streams) :=
  match m.next? with
  | none => none
  | some s =>
    let m := { m with index := m.index + 1, status := .running }
    if w.program.config.maxSteps < m.index then
      some (s, m.fail ⟨.stepLimit, s.node⟩, w.streams)
    else
      let advanced := m.skip 1
      match advanced.execute w s with
      | .ok (m, streams) => some (s, m.settle { w with streams }, streams)
      | .error failure => some (s, m.fail failure, w.streams)

end Machine
end ReactiveLang
