import ReactiveLang.Keyed
import ReactiveLang.Store
import ReactiveLang.Value.Basic
import ReactiveLang.Analysis.Scope

/-!
# Evaluations

A run of the program, a call, the making of an instance and a conversion each have an evaluation:
the names bound so far, and a link to the evaluation whose names are seen as well. The links make
a chain that ends at the program's evaluation.
-/

namespace ReactiveLang

/-- What an evaluation runs. Mirrors quill-eval/evaluation:27-32. -/
inductive EvaluationKind where
  | program
  | function
  | structureDef
  | conversion
  deriving DecidableEq, Inhabited

/-- Mirrors quill-eval/evaluation:35-42. -/
structure Evaluation where
  kind : EvaluationKind
  definition : NodeId
  closure : Option EvaluationId
  /-- What `this` is in a conversion. -/
  subject : Option Value
  /-- The names bound so far, in order. -/
  bindings : List (String × Value)
  deriving Inhabited

namespace Evaluation

def start (kind : EvaluationKind) (definition : NodeId) (closure : Option EvaluationId) :
    Evaluation :=
  ⟨kind, definition, closure, none, []⟩

def bind (e : Evaluation) (name : String) (value : Value) : Evaluation :=
  { e with bindings := Keyed.insert name value e.bindings }

def get? (e : Evaluation) (name : String) : Option Value := e.bindings.lookup name

end Evaluation

/-- The evaluations of a pass, in the order in which they began. -/
abbrev Evaluations := Store Evaluation

namespace Evaluations

variable (es : Evaluations)

/-- Begins an evaluation. Mirrors quill-eval/evaluation:108-117 (`push`). -/
def begin (e : Evaluation) : EvaluationId × Evaluations := (⟨es.size⟩, es.push e)

def find? (id : EvaluationId) : Option Evaluation := es.get? id.index

/-- Binds a name in one evaluation. -/
def bind (id : EvaluationId) (name : String) (value : Value) : Evaluations :=
  es.modify id.index fun e => e.bind name value

/-- At most `fuel` evaluations along the links, and the first one. -/
def chainFrom : Nat → EvaluationId → List EvaluationId
  | 0, _ => []
  | fuel + 1, id =>
    match (es.find? id).bind Evaluation.closure with
    | some next => id :: chainFrom fuel next
    | none => [id]

/-- An evaluation and those whose names it sees, nearest first. Links go back to earlier
evaluations, so there are no more than there are evaluations. Mirrors quill-eval/evaluation:144-146
(`chain`). -/
def chain (id : EvaluationId) : List EvaluationId := es.chainFrom es.size id

/-- What a name is bound to in an evaluation itself. -/
def get? (id : EvaluationId) (name : String) : Option Value :=
  (es.find? id).bind fun e => e.get? name

/-- What a name is bound to in an evaluation or one that it sees. Mirrors
quill-eval/evaluation:139-141 (`resolve`). -/
def resolve (id : EvaluationId) (name : String) : Option Value :=
  (es.chain id).findSome? fun id => get? es id name

/-- The instance that an evaluation of a structure has made. Mirrors quill-eval/structure:30-50
(`from_evaluation`). -/
def instanceAt (t : Tree) (id : EvaluationId) : Instance Value :=
  let e := (es.find? id).getD default
  match t.construct e.definition with
  | .structureDef name inputs _ =>
    ⟨e.definition, name, id, inputs.filterMap fun i => (t.construct i).definedName?, e.bindings⟩
  | _ => ⟨e.definition, "", id, [], e.bindings⟩

end Evaluations

namespace Instance

/-- What a name was bound to when the instance was made. Mirrors quill-eval/structure:65-67
(`resolve`). -/
def resolve (object : Instance Value) (name : String) : Option Value :=
  object.bindings.lookup name

/-- A member that the structure declares, for names that were never bound. Mirrors
quill-eval/structure:71-73 (`member`). -/
def member? (object : Instance Value) (t : Tree) (name : String) : Option NodeId :=
  t.structureMember? object.definition name

end Instance
end ReactiveLang
