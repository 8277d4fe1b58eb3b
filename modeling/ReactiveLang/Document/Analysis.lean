import ReactiveLang.Analysis.Conflict
import ReactiveLang.Document.Syntax

/-!
# Documents of the analysis

Types and conflicts as JSON documents.
-/

namespace ReactiveLang

/-! ## Types -/

namespace UnknownReason

def all : List UnknownReason := [cycle, unresolved, unparsable, unannotated, unsupported]

def name : UnknownReason → String
  | cycle => "Cycle"
  | unresolved => "Unresolved"
  | unparsable => "Unparsable"
  | unannotated => "Unannotated"
  | unsupported => "Unsupported"

def ofName? (name : String) : Option UnknownReason := all.find? fun r => r.name = name

end UnknownReason

namespace Ty

mutual

def toJson : Ty → Json
  | boolean => .text "Boolean"
  | text => .text "Text"
  | measurement unit => .object [("Measurement", MeasureUnit.optionalToJson unit)]
  | nothing => .text "None"
  | list item => .object [("List", toJson item)]
  | set item => .object [("Set", toJson item)]
  | map key value => .object [("Map", .array [toJson key, toJson value])]
  | instanceOf definition name =>
    .object [("Structure", .object [("definition", definition.toJson), ("name", .text name)])]
  | function inputs output =>
    .object [("Function", .array [.array (allToJson inputs), toJson output])]
  | stream item => .object [("Stream", toJson item)]
  | union left right => .object [("Union", .array [toJson left, toJson right])]
  | never => .text "Never"
  | unknown reason => .object [("Unknown", .text reason.name)]

def allToJson : List Ty → List Json
  | [] => []
  | t :: rest => toJson t :: allToJson rest

end

/-- The types that are only a name. -/
def ofName? : String → Option Ty
  | "Boolean" => some boolean
  | "Text" => some text
  | "None" => some nothing
  | "Never" => some never
  | _ => none

/-- Reads the definition and the name of a structure. -/
def instanceOfJson? (depth : Nat) (j : Json) : Option Ty := do
  let (_, fields, _) ← j.toFields? ["definition", "name"] depth
  match fields with
  | [some definition, some name] => some (instanceOf (← NodeId.ofJson? definition) (← name.toText?))
  | _ => none

def ofJson? (depth : Nat) (j : Json) : Option Ty :=
  match depth, j with
  | _, .text name => ofName? name
  | depth + 1, .object [(name, content)] =>
    match name with
    | "Measurement" => (MeasureUnit.optionalOfJson? depth content).map measurement
    | "List" => (ofJson? depth content).map list
    | "Set" => (ofJson? depth content).map set
    | "Stream" => (ofJson? depth content).map stream
    | "Structure" => instanceOfJson? depth content
    | "Unknown" => ((content.toBareCase? depth).bind UnknownReason.ofName?).map unknown
    | "Map" =>
      match depth, content with
      | depth + 1, .array [key, value] => do
        let key ← ofJson? depth key
        let value ← ofJson? depth value
        some (map key value)
      | _, _ => none
    | "Union" =>
      match depth, content with
      | depth + 1, .array [left, right] => do
        let left ← ofJson? depth left
        let right ← ofJson? depth right
        some (union left right)
      | _, _ => none
    | "Function" =>
      match depth, content with
      | depth + 2, .array [.array inputs, output] => do
        let inputs ← inputs.mapM (ofJson? depth)
        let output ← ofJson? (depth + 1) output
        some (function inputs output)
      | _, _ => none
    | name =>
      match content with
      | .null => ofName? name
      | _ => none
  | _, _ => none

/-- Types in an array. -/
def listOfJson? (depth : Nat) (j : Json) : Option (List Ty) := do
  let (items, depth) ← j.toItems? depth
  items.mapM (ofJson? depth)

end Ty

/-! ## Conflicts -/

def ConflictKind.ofJson? (depth : Nat) (j : Json) : Option ConflictKind :=
  (j.toBareCase? depth).bind ofName?

namespace Explanation

/-- An explanation without types has no field for them. -/
def toJson (e : Explanation) : Json :=
  .object ([("node", e.node.toJson), ("template", .text e.template)] ++
    if e.types.isEmpty then [] else [("types", .array (e.types.map Ty.toJson))])

def ofJson? (depth : Nat) (j : Json) : Option Explanation := do
  let (_, fields, depth) ← j.toFields? ["node", "template", "types"] depth
  match fields with
  | [some node, some template, types] =>
    let node ← NodeId.ofJson? node
    let template ← template.toText?
    let types ← match types with
      | some types => Ty.listOfJson? depth types
      | none => some []
    some ⟨node, template, types⟩
  | _ => none

end Explanation

namespace Conflict

/-- A conflict without a related place has no field for it. -/
def toJson (c : Conflict) : Json :=
  .object ([("kind", .text c.kind.name), ("primary", c.primary.toJson)] ++
    (c.secondary.toList.map fun e => ("secondary", e.toJson)) ++ [("fatal", .bool c.fatal)])

/-- Reads the related place: absent, `null` or an explanation. -/
def secondaryOfJson? (depth : Nat) : Option Json → Option (Option Explanation)
  | none => some none
  | some .null => some none
  | some j => (Explanation.ofJson? depth j).map some

/-- Only a conflict whose fields are named may leave out the related place. -/
def ofJson? (depth : Nat) (j : Json) : Option Conflict := do
  let (byName, fields, depth) ← j.toFields? ["kind", "primary", "secondary", "fatal"] depth
  match fields with
  | [some kind, some primary, secondary, some fatal] =>
    if byName || secondary.isSome then
      let kind ← ConflictKind.ofJson? depth kind
      let primary ← Explanation.ofJson? depth primary
      let secondary ← secondaryOfJson? depth secondary
      let fatal ← fatal.toBool?
      some ⟨kind, primary, secondary, fatal⟩
    else none
  | _ => none

/-- All conflicts of a program. -/
def allToJson (conflicts : List Conflict) : Json :=
  .object [("conflicts", .array (conflicts.map toJson))]

def allOfJson? (depth : Nat) (j : Json) : Option (List Conflict) := do
  let (_, fields, depth) ← j.toFields? ["conflicts"] depth
  match fields with
  | [some conflicts] =>
    let (items, depth) ← conflicts.toItems? depth
    items.mapM (ofJson? depth)
  | _ => none

end Conflict
end ReactiveLang
