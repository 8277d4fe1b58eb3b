import ReactiveLang.Eval.Evaluation
import ReactiveLang.Eval.Program
import ReactiveLang.Eval.Stream
import ReactiveLang.Value.Native

/-!
# What a node does with its operands

`World.outcome` says what happens when all operands of a node have their values: a value, perhaps
bound to a name, a new stream, or a call to run. It depends on the node, the operands and the
names that can be seen, and on nothing of the machine that runs the program.
-/

namespace ReactiveLang

/-- What a pass starts with; it stays the same while the pass runs. Mirrors
quill-eval/machine:43-53. -/
structure Pass where
  number : Nat
  /-- The streams whose new values started the pass. -/
  changed : List StreamId
  /-- The calls that made those streams. -/
  changedCreators : List NodeId
  /-- Values of the program's own nodes in the pass before. -/
  memo : List (NodeId × Value)
  /-- The values of reactions in the pass before. -/
  reactions : List (NodeId × Value)
  deriving Inhabited

/-- The first pass starts with nothing. -/
def Pass.first : Pass := ⟨0, [], [], [], []⟩

/-- What a step may look at besides the machine. Mirrors quill-eval/machine:56-64. -/
structure World where
  program : Program
  pass : Pass
  streams : Streams
  /-- The step was taken before and is taken again. -/
  replaying : Bool

/-- A call that is about to run. -/
structure Call where
  kind : EvaluationKind
  definition : NodeId
  closure : EvaluationId
  /-- What a conversion converts. -/
  subject : Option Value
  arguments : List Value

inductive Outcome where
  /-- The value is there already. -/
  | keep
  | value (v : Value)
  /-- A value that gets a name in the current evaluation. -/
  | named (name : String) (v : Value)
  /-- A value that the next pass shall know. -/
  | reaction (v : Value)
  | stream (kind : StreamKind) (inputs : List Value)
  | run (call : Call)

/-- The number of values that a node takes when it finishes. -/
def Construct.operandCount : Construct → Nat
  | block statements => statements.length
  | binding _ _ value => value.toList.length
  | list items => items.length
  | set items => items.length
  | map entries => 2 * entries.length
  | property _ _ => 1
  | item _ _ => 2
  | binary _ _ _ => 2
  | unary _ _ => 1
  | typeTest _ _ => 1
  | call _ inputs => inputs.length + 1
  | convert _ _ => 1
  | previous _ _ => 2
  | changed _ => 1
  | reaction _ _ _ => 1
  | _ => 0

/-- Keys and values that follow each other, in pairs. -/
def pairUp : List Value → List (Value × Value)
  | k :: v :: rest => (k, v) :: pairUp rest
  | _ => []

/-- The item of a list at a position counted from one; nothing where there is no such item. Mirrors
quill-eval/machine:812-826 (`list_item`). -/
def listItem (list index : Value) : NativeResult :=
  match list with
  | .list items =>
    match index with
    | .measurement x _ =>
      match Number.toNat? x with
      | some (i + 1) => .ok (items.getD i .nothing)
      | _ => .ok .nothing
    | other => .error (.typeMismatch (.measurement none) other)
  | other => .error (.typeMismatch (.list (.unknown .unsupported)) other)

/-- The stream that a value is. Mirrors quill-eval/machine:805-809 (`stream_handle`). -/
def streamHandle (v : Value) : Except (ExceptionKind Value) StreamId :=
  match v with
  | .stream id => .ok id
  | other => .error (.typeMismatch (.stream (.unknown .unsupported)) other)

namespace World

variable (w : World)

def tree : Tree := w.program.tree

/-- The value as an operand: of a stream, the newest value that the pass may read. Mirrors
quill-eval/machine:793-803 (`resolve_stream`). -/
def seen (v : Value) : Value :=
  match v with
  | .stream id => ((w.streams.find? id).bind fun s => s.latestAt? w.pass.number).getD .nothing
  | other => other

/-! ## Names -/

/-- What a name stands for in an evaluation. Mirrors quill-eval/machine:542-547 (`lookup`) and
449-454. -/
def lookup (es : Evaluations) (current : EvaluationId) (name : String) :
    Except (ExceptionKind Value) Value :=
  match es.resolve current name with
  | some v => .ok v
  | none =>
    match StreamKind.ofName? name with
    | some kind => .ok (.function (.stream kind))
    | none => .error (.nameNotFound name)

/-- What `this` is in an evaluation itself: what is converted, or the instance being made. -/
def thisAt? (es : Evaluations) (id : EvaluationId) : Option Value :=
  match es.find? id with
  | none => none
  | some e =>
    match e.subject with
    | some v => some v
    | none => if e.kind = .structureDef then some (.instanceOf (es.instanceAt w.tree id)) else none

/-- What `this` is, in the nearest evaluation that has one. Mirrors quill-eval/machine:549-559
(`this`) and 466-479. -/
def this (es : Evaluations) (current : EvaluationId) : Except (ExceptionKind Value) Value :=
  match (es.chain current).findSome? (w.thisAt? es) with
  | some v => .ok v
  | none => .error (.nameNotFound "this")

/-- A member that was not bound when the instance was made: a definition of the structure. Mirrors
quill-eval/machine:572-586. -/
def unboundMember (object : Instance Value) (name : String) : NativeResult :=
  match object.member? w.tree name with
  | none => .error (.nameNotFound name)
  | some member =>
    match w.tree.construct member with
    | .functionDef _ _ _ _ => .ok (.function (.function member object.evaluation))
    | .structureDef _ _ _ => .ok (.function (.structureDef member object.evaluation))
    | _ => .error (.valueRequired name)

/-- A property of a value: a member of an instance, or a method of a text. Mirrors
quill-eval/machine:561-593 (`property`). -/
def property (subject : Value) (name : String) : NativeResult :=
  match subject with
  | .instanceOf object =>
    match object.resolve name with
    | some v => .ok v
    | none => w.unboundMember object name
  | other =>
    match TextMethod.ofName? name with
    | some method => method.ofReceiver other
    | none => .error (.nameNotFound name)

/-! ## Calls -/

/-- What calling a value with some arguments does. Mirrors quill-eval/machine:597-637 (`call`). -/
def callOutcome (function : Value) (arguments : List Value) :
    Except (ExceptionKind Value) Outcome :=
  match function with
  | .function (.function definition closure) =>
    .ok (.run ⟨.function, definition, closure, none, arguments⟩)
  | .function (.structureDef definition closure) =>
    .ok (.run ⟨.structureDef, definition, closure, none, arguments⟩)
  | .function (.conversion definition closure) =>
    match arguments with
    | [] => .error (.valueRequired "input")
    | subject :: _ => .ok (.run ⟨.conversion, definition, closure, some subject, []⟩)
  | .function (.text method receiver) => do
    let v ← method.apply receiver arguments
    return .value v
  | .function (.stream kind) => .ok (.stream kind arguments)
  | other => .error (.typeMismatch (.function [] (.unknown .unsupported)) other)

/-- The evaluation whose names a defined conversion sees: the instance's for a conversion of its
structure, else the program's. Mirrors quill-eval/machine:773-779. -/
def conversionClosure (definition : NodeId) (v : Value) : EvaluationId :=
  match v with
  | .instanceOf object =>
    if (w.tree.parent? definition).any w.tree.isStructureBody then object.evaluation else .root
  | _ => .root

/-- What converting a value to a type does, at a node. Mirrors quill-eval/machine:750-783
(`convert`). -/
def convertOutcome (node : NodeId) (v : Value) (target : Ty) :
    Except (ExceptionKind Value) Outcome :=
  if target.accepts v.typeOf then .ok (.value v)
  else
    match w.tree.conversion? v.typeOf target node with
    | none => .error (.conversionNotFound v.typeOf target)
    | some ⟨.native conversion, _⟩ => do
      let converted ← conversion.apply v
      return .value converted
    | some ⟨.defined definition, _⟩ =>
      .ok (.run ⟨.conversion, definition, w.conversionClosure definition v, some v, []⟩)

/-! ## Streams -/

/-- The value that a stream had `count` values ago; a count that is not positive is none. Mirrors
quill-eval/machine:505-524. -/
def previousValue (stream count : Value) : NativeResult := do
  let id ← streamHandle stream
  let (x, _) ← count.measurementOf
  let back := (Number.floorNat? x).getD 0
  return ((w.streams.find? id).bind fun s => s.previousAt? back w.pass.number).getD .nothing

/-! ## All nodes -/

/-- The operand at a position, as it was left there: a stream stays a stream. -/
def operand (operands : List Value) (i : Nat) : Value := operands.getD i .nothing

/-- What a node does with its operands, which are given in their order. Mirrors
quill-eval/machine:384-538 (`finish`). -/
def outcome (es : Evaluations) (current : EvaluationId) (node : NodeId) (operands : List Value) :
    Except (ExceptionKind Value) Outcome :=
  let raw := operand operands
  let seen (i : Nat) : Value := w.seen (raw i)
  match w.tree.construct node with
  | .program _ => .ok .keep
  | .conditional _ _ _ => .ok .keep
  | .block _ => .ok (.value (((operands.map w.seen).getLast?).getD .nothing))
  | .binding name _ none => .error (.valueRequired name)
  | .binding name _ (some _) => .ok (.named name (raw 0))
  | .functionDef name _ _ _ => .ok (.named name (.function (.function node current)))
  | .structureDef name _ _ => .ok (.named name (.function (.structureDef node current)))
  | .conversionDef _ _ _ => .ok (.value (.function (.conversion node current)))
  | .boolean b => .ok (.value (.boolean b))
  | .number x unit => .ok (.value (.measurement x unit))
  | .text s => .ok (.value (.text s))
  | .nothing => .ok (.value .nothing)
  | .list _ => .ok (.value (.list (operands.map w.seen)))
  | .set _ => .ok (.value (Value.setOf (operands.map w.seen)))
  | .map _ => .ok (.value (Value.mapOf (pairUp (operands.map w.seen))))
  | .reference name => (lookup es current name).map .value
  | .property _ name => (w.property (seen 0) name).map .value
  | .item _ _ => (listItem (seen 0) (seen 1)).map .value
  | .thisValue => (w.this es current).map .value
  | .binary _ operator _ => (operator.apply (seen 0) (seen 1)).map .value
  | .unary operator _ => (operator.apply (seen 0)).map .value
  | .typeTest _ annotation =>
    .ok (.value (.boolean ((w.tree.annotationType node annotation).accepts (seen 0).typeOf)))
  | .call _ _ => callOutcome (seen 0) ((operands.drop 1).map w.seen)
  | .convert _ annotation => w.convertOutcome node (seen 0) (w.tree.annotationType node annotation)
  | .previous _ _ => (w.previousValue (raw 0) (seen 1)).map .value
  | .changed _ => do
    let id ← streamHandle (raw 0)
    return .value (.boolean (w.pass.changed.contains id))
  | .reaction _ _ _ => .ok (.reaction (seen 0))
  | .unparsable _ => .error .unparsable

end World
end ReactiveLang
