import ReactiveLang.Json.Decode
import ReactiveLang.Syntax.Node

/-!
# Documents of the syntax

Units, spans, operators and annotations as JSON documents. Each `ofJson?` gets the number of
bracket levels it may still enter and reads what `toJson` writes, among other spellings.
-/

namespace ReactiveLang

/-! ## Nodes and units -/

def NodeId.toJson (id : NodeId) : Json := .nat id.index

def NodeId.ofJson? (j : Json) : Option NodeId := j.toNat32?.map NodeId.mk

namespace MeasureUnit

def toJson (u : MeasureUnit) : Json :=
  .object [("exponents", .object (u.exponents.map fun e => (e.1, .int e.2)))]

/-- Exponents by dimension; of a repeated dimension the last exponent counts. -/
def exponentsOf? (depth : Nat) (j : Json) : Option (List (String × Int)) :=
  match depth, j with
  | _ + 1, .object members => do
    let pairs ← members.mapM fun m => do
      let power ← m.2.toInt32?
      some (m.1, power)
    some (Keyed.ofList pairs)
  | _, _ => none

def ofJson? (depth : Nat) (j : Json) : Option MeasureUnit := do
  let (_, fields, depth) ← j.toFields? ["exponents"] depth
  match fields with
  | [some exponents] => (exponentsOf? depth exponents).map MeasureUnit.mk
  | _ => none

/-- A unit, or `null` for any unit. -/
def optionalToJson : Option MeasureUnit → Json
  | some unit => unit.toJson
  | none => .null

def optionalOfJson? (depth : Nat) : Json → Option (Option MeasureUnit)
  | .null => some none
  | j => (ofJson? depth j).map some

end MeasureUnit

/-! ## Spans -/

namespace Span

def toJson (s : Span) : Json :=
  .object [("line", .nat s.line), ("column", .nat s.column), ("end_line", .nat s.endLine),
    ("end_column", .nat s.endColumn)]

def ofJson? (depth : Nat) (j : Json) : Option Span := do
  let (_, fields, _) ← j.toFields? ["line", "column", "end_line", "end_column"] depth
  match fields with
  | [some line, some column, some endLine, some endColumn] =>
    some ⟨← line.toNat32?, ← column.toNat32?, ← endLine.toNat32?, ← endColumn.toNat32?⟩
  | _ => none

end Span

/-! ## Operators -/

namespace BinaryOperator

def all : List BinaryOperator :=
  [add, subtract, multiply, divide, remainder, less, greater, lessOrEqual, greaterOrEqual, equal,
   notEqual, and, or]

def name : BinaryOperator → String
  | add => "Add"
  | subtract => "Subtract"
  | multiply => "Multiply"
  | divide => "Divide"
  | remainder => "Remainder"
  | less => "Less"
  | greater => "Greater"
  | lessOrEqual => "LessOrEqual"
  | greaterOrEqual => "GreaterOrEqual"
  | equal => "Equal"
  | notEqual => "NotEqual"
  | and => "And"
  | or => "Or"

def ofName? (name : String) : Option BinaryOperator := all.find? fun o => o.name = name

def ofJson? (depth : Nat) (j : Json) : Option BinaryOperator := (j.toBareCase? depth).bind ofName?

def toJson (o : BinaryOperator) : Json := .text o.name

end BinaryOperator

namespace UnaryOperator

def all : List UnaryOperator := [negate, not]

def name : UnaryOperator → String
  | negate => "Negate"
  | not => "Not"

def ofName? (name : String) : Option UnaryOperator := all.find? fun o => o.name = name

end UnaryOperator

/-! ## Annotations -/

namespace Annotation

mutual

def toJson : Annotation → Json
  | boolean => .text "Boolean"
  | text => .text "Text"
  | number unit => .object [("Number", MeasureUnit.optionalToJson unit)]
  | nothing => .text "None"
  | list item => .object [("List", toJson item)]
  | set item => .object [("Set", toJson item)]
  | map key value => .object [("Map", .array [toJson key, toJson value])]
  | stream item => .object [("Stream", toJson item)]
  | union left right => .object [("Union", .array [toJson left, toJson right])]
  | named name => .object [("Named", .text name)]
  | function inputs output =>
    .object [("Function", .object [("inputs", .array (allToJson inputs)), ("output", toJson output)])]
  | unparsable => .text "Unparsable"

def allToJson : List Annotation → List Json
  | [] => []
  | a :: rest => toJson a :: allToJson rest

end

/-- The annotations that are only a name. -/
def ofName? : String → Option Annotation
  | "Boolean" => some boolean
  | "Text" => some text
  | "None" => some nothing
  | "Unparsable" => some unparsable
  | _ => none

def ofJson? (depth : Nat) (j : Json) : Option Annotation :=
  match depth, j with
  | _, .text name => ofName? name
  | depth + 1, .object [(name, content)] =>
    match name with
    | "Number" => (MeasureUnit.optionalOfJson? depth content).map number
    | "List" => (ofJson? depth content).map list
    | "Set" => (ofJson? depth content).map set
    | "Stream" => (ofJson? depth content).map stream
    | "Named" => content.toText?.map named
    | "Map" =>
      match depth, content with
      | depth + 1, .array [key, value] => do
        let key ← ofJson? depth key
        let value ← ofJson? depth value
        some (map key value)
      | _, _ => none
    | "Union" =>
      match depth, content with
      | depth + 1, .array [left, right] => do
        let left ← ofJson? depth left
        let right ← ofJson? depth right
        some (union left right)
      | _, _ => none
    | "Function" =>
      match depth with
      | depth + 2 => do
        let (_, fields, _) ← content.toFields? ["inputs", "output"] (depth + 2)
        match fields with
        | [some (.array inputs), some output] =>
          let inputs ← inputs.mapM (ofJson? depth)
          let output ← ofJson? (depth + 1) output
          some (function inputs output)
        | _ => none
      | _ => none
    | name =>
      match content with
      | .null => ofName? name
      | _ => none
  | _, _ => none

end Annotation
end ReactiveLang
