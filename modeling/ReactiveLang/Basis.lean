import ReactiveLang.Types.TypeSet

/-!
# Built-in definitions

What every program can use without defining it: methods of texts, conversions, and definitions of
streams, each with its types.
-/

namespace ReactiveLang

/-- A declared input of a built-in. An optional one defaults to nothing. Mirrors
quill-analysis/basis:18-23. -/
structure BuiltInInput where
  name : String
  type : Ty
  optional : Bool

/-- What a built-in takes and gives. Mirrors quill-analysis/basis:27-31. -/
structure Signature where
  name : String
  inputs : List BuiltInInput
  output : Ty

namespace Signature

/-- Mirrors quill-analysis/basis:34-39 (`function_type`). -/
def functionType (s : Signature) : Ty := .function (s.inputs.map fun i => i.type) s.output

/-- The number of inputs that have to be given. Mirrors quill-analysis/basis:41-43
(`required_inputs`). -/
def requiredInputs (s : Signature) : Nat := (s.inputs.filter fun i => !i.optional).length

end Signature

/-- Methods that are read off a text. Mirrors quill-analysis/basis:60-68. -/
inductive TextMethod where
  | length
  | repeated
  | equals
  | notEquals
  | segment
  | combine
  | has
  deriving DecidableEq, Inhabited

namespace TextMethod

def all : List TextMethod := [length, repeated, equals, notEquals, segment, combine, has]

def name : TextMethod → String
  | length => "length"
  | repeated => "repeat"
  | equals => "equals"
  | notEquals => "notequals"
  | segment => "segment"
  | combine => "combine"
  | has => "has"

def ofName? (name : String) : Option TextMethod := all.find? fun m => m.name = name

def required (name : String) (type : Ty) : BuiltInInput := ⟨name, type, false⟩

/-- Mirrors quill-analysis/basis:97-116 (`signature`). -/
def signature (m : TextMethod) : Signature :=
  match m with
  | length => ⟨m.name, [], .number⟩
  | repeated => ⟨m.name, [required "count" .number], .text⟩
  | equals | notEquals => ⟨m.name, [required "text" .text], .boolean⟩
  | segment => ⟨m.name, [required "delimiter" .text], .list .text⟩
  | combine => ⟨m.name, [required "text" .text], .text⟩
  | has => ⟨m.name, [required "text" .text], .boolean⟩

end TextMethod

/-- Conversions that need no definition. Mirrors quill-analysis/basis:125-134. -/
inductive NativeConversion where
  /-- One text for each character. -/
  | textToList
  /-- Nothing when the text is no number. -/
  | textToNumber
  | numberToText
  | booleanToText
  | listToSet
  | setToList
  deriving DecidableEq, Inhabited

namespace NativeConversion

/-- The conversion from one type to another, if there is one. Mirrors quill-analysis/basis:138-154
(`find`). -/
def find? (input output : Ty) : Option NativeConversion :=
  match input, output with
  | .text, .list item => if item.accepts .text then some textToList else none
  | .text, .measurement _ => some textToNumber
  | .measurement _, .text => some numberToText
  | .boolean, .text => some booleanToText
  | .list a, .set b => if b.accepts a then some listToSet else none
  | .set a, .list b => if b.accepts a then some setToList else none
  | _, _ => none

/-- The type of what is made from an input of that type. Mirrors quill-analysis/basis:157-167
(`output_type`). -/
def outputType (c : NativeConversion) (input : Ty) : Ty :=
  match c, input with
  | textToList, _ => .list .text
  | textToNumber, _ => .union .number .nothing
  | numberToText, _ => .text
  | booleanToText, _ => .text
  | listToSet, .list item => .set item
  | setToList, .set item => .list item
  | listToSet, _ => .set .never
  | setToList, _ => .list .never

end NativeConversion

/-- Definitions of streams: called by name, each makes a stream. Mirrors
quill-analysis/basis:176-179. -/
inductive StreamKind where
  /-- Milliseconds since the first tick. -/
  | time
  deriving DecidableEq, Inhabited

namespace StreamKind

def all : List StreamKind := [time]

def name : StreamKind → String
  | time => "Time"

def ofName? (name : String) : Option StreamKind := all.find? fun k => k.name = name

def milliseconds : MeasureUnit := .ofDimension "ms"

/-- The type of the stream's values. Mirrors quill-analysis/basis:195-199 (`value_type`). -/
def valueType : StreamKind → Ty
  | time => .measurement (some milliseconds)

/-- Calling the definition makes the stream. Mirrors quill-analysis/basis:202-214 (`signature`). -/
def signature (k : StreamKind) : Signature :=
  match k with
  | time =>
    ⟨k.name, [⟨"frequency", .union (.measurement (some milliseconds)) .nothing, true⟩],
      .stream k.valueType⟩

end StreamKind
end ReactiveLang
