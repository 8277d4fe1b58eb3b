import ReactiveLang.Value.Basic

/-!
# Values as text
-/

namespace ReactiveLang.Value

def renderBoolean (b : Bool) : String := if b then "⊤" else "⊥"

/-- A number with its unit. -/
def renderMeasurement (x : Float) (unit : MeasureUnit) : String :=
  Number.Style.plain.render x ++ unit.render

mutual

/-- The value as it is shown. Mirrors quill-eval/value:273-314. -/
def render (v : Value) : String :=
  match v with
  | nothing => "ø"
  | boolean b => renderBoolean b
  | text s => "'" ++ s ++ "'"
  | measurement x unit => renderMeasurement x unit
  | list items => "[" ++ " ".intercalate (renderItems items) ++ "]"
  | set items => "\x7b" ++ " ".intercalate (renderItems items) ++ "\x7d"
  | map entries =>
    if entries.isEmpty then "\x7b:\x7d"
    else "\x7b" ++ " ".intercalate (renderEntries entries) ++ "\x7d"
  | instanceOf object => renderInstance object
  | exception kind node => "!" ++ kind.name ++ " at " ++ node.render ++ ": " ++ renderKind kind
  | stream id => "stream " ++ id.render
  | function callable => callable.render
termination_by structural v

def renderItems (items : List Value) : List String :=
  match items with
  | [] => []
  | v :: rest => render v :: renderItems rest
termination_by structural items

def renderEntries (entries : List (Value × Value)) : List String :=
  match entries with
  | [] => []
  | (k, v) :: rest => (render k ++ ":" ++ render v) :: renderEntries rest
termination_by structural entries

/-- The inputs that were bound, as they are declared. Mirrors quill-eval/structure:88-104. -/
def renderInstance (object : Instance Value) : String :=
  match object with
  | ⟨_, name, _, inputs, bindings⟩ =>
    let shown := renderBindings bindings
    let parts := inputs.filterMap fun input =>
      (shown.lookup input).map fun s => input ++ ": " ++ s
    name ++ "(" ++ " ".intercalate parts ++ ")"
termination_by structural object

def renderBindings (bindings : List (String × Value)) : List (String × String) :=
  match bindings with
  | [] => []
  | (name, v) :: rest => (name, render v) :: renderBindings rest
termination_by structural bindings

/-- What went wrong, in words. Mirrors quill-eval/error:86-106. -/
def renderKind (kind : ExceptionKind Value) : String :=
  match kind with
  | .nameNotFound name => "no value named " ++ name
  | .typeMismatch expected received =>
    "expected " ++ expected.render ++ ", received " ++ render received
  | .conversionNotFound input output =>
    "no conversion from " ++ input.render ++ " to " ++ output.render
  | .stepLimit => "step limit reached"
  | .callDepthLimit => "call depth limit reached"
  | .evaluationLimit name => name ++ " evaluated too many times"
  | .valueRequired name => name ++ " needs a value"
  | .textTooLong limit => "text longer than " ++ toString limit ++ " bytes"
  | .unparsable => "unparsable"
termination_by structural kind

end

end ReactiveLang.Value
