import ReactiveLang.Basis
import ReactiveLang.Number.Style

/-!
# Values

What programs compute with. Values hold their parts; an instance of a structure holds the names
that its construction bound, and the place of that evaluation. A failure of the running program is
a value too, but only as a program's result.
-/

namespace ReactiveLang

/-- The place of an evaluation among those of its pass. -/
structure EvaluationId where
  index : Nat
  deriving DecidableEq, Inhabited

/-- The program's own evaluation. -/
def EvaluationId.root : EvaluationId := ⟨0⟩

/-- The place of a stream among the streams. -/
structure StreamId where
  index : Nat
  deriving DecidableEq, Inhabited

instance : LT StreamId := ⟨fun a b => a.index < b.index⟩

instance : DecidableLT StreamId := fun a b => inferInstanceAs (Decidable (a.index < b.index))

theorem StreamId.lt_trans (a b c : StreamId) (h : a < b) (h' : b < c) : a < c :=
  Nat.lt_trans (show a.index < b.index from h) h'

theorem StreamId.lt_total (a b : StreamId) : a = b ∨ a < b ∨ b < a := by
  rcases Nat.lt_trichotomy a.index b.index with h | h | h
  · exact .inr (.inl h)
  · exact .inl (congrArg StreamId.mk h)
  · exact .inr (.inr h)

def StreamId.render (id : StreamId) : String := "~" ++ toString id.index

/-- What a call can call. A definition comes with the evaluation whose names it can see. Mirrors
quill-eval/value:40-48. -/
inductive Callable where
  | function (definition : NodeId) (closure : EvaluationId)
  | structureDef (definition : NodeId) (closure : EvaluationId)
  | conversion (definition : NodeId) (closure : EvaluationId)
  /-- A method with the text that it was read from. -/
  | text (method : TextMethod) (receiver : String)
  | stream (kind : StreamKind)
  deriving DecidableEq

namespace Callable

def definition? : Callable → Option NodeId
  | function definition _ | structureDef definition _ | conversion definition _ => some definition
  | text _ _ | stream _ => none

def render : Callable → String
  | function definition _ => "ƒ " ++ definition.render
  | structureDef definition _ => "•" ++ definition.render
  | conversion definition _ => "→ " ++ definition.render
  | text method _ => "ƒ " ++ method.name
  | stream kind => "ƒ " ++ kind.name

end Callable

/-- Why a program failed, over the values of type `V`. Mirrors quill-eval/error:43-56. -/
inductive ExceptionKind (V : Type) where
  | nameNotFound (name : String)
  | typeMismatch (expected : Ty) (received : V)
  | conversionNotFound (input output : Ty)
  | stepLimit
  | callDepthLimit
  | evaluationLimit (function : String)
  /-- A name has no value, such as an input that was not given. -/
  | valueRequired (name : String)
  | textTooLong (limit : Nat)
  | unparsable

def ExceptionKind.name {V : Type} : ExceptionKind V → String
  | nameNotFound _ => "NameNotFound"
  | typeMismatch _ _ => "TypeMismatch"
  | conversionNotFound _ _ => "ConversionNotFound"
  | stepLimit => "StepLimit"
  | callDepthLimit => "CallDepthLimit"
  | evaluationLimit _ => "EvaluationLimit"
  | valueRequired _ => "ValueRequired"
  | textTooLong _ => "TextTooLong"
  | unparsable => "Unparsable"

/-- An instance of a structure, with members of type `V`. Mirrors quill-eval/structure:19-26. -/
structure Instance (V : Type) where
  definition : NodeId
  name : String
  /-- The evaluation that made the instance. -/
  evaluation : EvaluationId
  /-- The names of the inputs, as they are declared. -/
  inputs : List String
  /-- The names that were bound, in order. -/
  bindings : List (String × V)

/-- Mirrors quill-eval/value:21-36. -/
inductive Value where
  | nothing
  | boolean (b : Bool)
  | text (s : String)
  | measurement (number : Float) (unit : MeasureUnit)
  | list (items : List Value)
  /-- Items that differ from each other. -/
  | set (items : List Value)
  /-- Entries whose keys differ from each other. -/
  | map (entries : List (Value × Value))
  | instanceOf (object : Instance Value)
  | exception (kind : ExceptionKind Value) (node : NodeId)
  | stream (id : StreamId)
  | function (callable : Callable)

instance : Inhabited Value := ⟨.nothing⟩

/-- The failure of a program, where it arose. Mirrors quill-eval/error:110-113. -/
structure Failure where
  kind : ExceptionKind Value
  node : NodeId

def Failure.toValue (f : Failure) : Value := .exception f.kind f.node

namespace Value

/-- A plain number. -/
def number (x : Float) : Value := measurement x .unitless

def isException : Value → Bool
  | exception _ _ => true
  | _ => false

def toBoolean? : Value → Option Bool
  | boolean b => some b
  | _ => none

def toNumber? : Value → Option Float
  | measurement x _ => some x
  | _ => none

def toText? : Value → Option String
  | text s => some s
  | _ => none

def toStream? : Value → Option StreamId
  | stream id => some id
  | _ => none

mutual

/-- The value holds nothing that lives in the evaluations of a pass, so a later pass may use it.
Mirrors quill-eval/value:212-228 (`is_portable`). -/
def isPortable (v : Value) : Bool :=
  match v with
  | nothing | boolean _ | text _ | measurement _ _ | stream _ | exception _ _ => true
  | list items => allPortable items
  | set items => allPortable items
  | map entries => entriesPortable entries
  | function (.text _ _) => true
  | function (.stream _) => true
  | function _ => false
  | instanceOf _ => false
termination_by structural v

def allPortable (items : List Value) : Bool :=
  match items with
  | [] => true
  | v :: rest => isPortable v && allPortable rest
termination_by structural items

def entriesPortable (entries : List (Value × Value)) : Bool :=
  match entries with
  | [] => true
  | (k, v) :: rest => isPortable k && isPortable v && entriesPortable rest
termination_by structural entries

end

end Value
end ReactiveLang
