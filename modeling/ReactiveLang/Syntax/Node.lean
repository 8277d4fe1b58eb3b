import ReactiveLang.Syntax.Span
import ReactiveLang.Syntax.Operator
import ReactiveLang.Syntax.Annotation

/-!
# Nodes

A node holds one construct of the language and refers to its children by their place in the
tree's store of nodes.
-/

namespace ReactiveLang

/-- A node's place in its store. -/
structure NodeId where
  index : Nat
  deriving DecidableEq, Inhabited, Hashable

instance : LT NodeId := ⟨fun a b => a.index < b.index⟩

instance : DecidableLT NodeId := fun a b => inferInstanceAs (Decidable (a.index < b.index))

theorem NodeId.lt_trans (a b c : NodeId) (h : a < b) (h' : b < c) : a < c :=
  Nat.lt_trans (show a.index < b.index from h) h'

theorem NodeId.lt_total (a b : NodeId) : a = b ∨ a < b ∨ b < a := by
  rcases Nat.lt_trichotomy a.index b.index with h | h | h
  · exact .inr (.inl h)
  · exact .inl (congrArg NodeId.mk h)
  · exact .inr (.inr h)

def NodeId.render (id : NodeId) : String := "#" ++ toString id.index

/-- What a node is. Mirrors quill-types/ast:193-280. -/
inductive Construct where
  /-- The root. -/
  | program (block : NodeId)
  /-- Statements in order; the last one's value is the block's. -/
  | block (statements : List NodeId)
  /-- A name with its type and value. As an input, the value is the default. -/
  | binding (name : String) (type : Option Annotation) (value : Option NodeId)
  /-- Without a body, the function is abstract. -/
  | functionDef (name : String) (inputs : List NodeId) (output : Option Annotation)
      (body : Option NodeId)
  /-- The body's block holds the members. -/
  | structureDef (name : String) (inputs : List NodeId) (body : Option NodeId)
  | conversionDef (input output : Annotation) (body : NodeId)
  | boolean (b : Bool)
  | number (value : Float) (unit : MeasureUnit)
  | text (s : String)
  | nothing
  | list (items : List NodeId)
  | set (items : List NodeId)
  | map (entries : List (NodeId × NodeId))
  | reference (name : String)
  | property (subject : NodeId) (name : String)
  /-- An item of a list by its position, counted from one. -/
  | item (list index : NodeId)
  /-- The value that a conversion or a structure's member works on. -/
  | thisValue
  | binary (left : NodeId) (operator : BinaryOperator) (right : NodeId)
  | unary (operator : UnaryOperator) (operand : NodeId)
  | conditional (condition yes no : NodeId)
  /-- Whether a value is of a type. -/
  | typeTest (expression : NodeId) (type : Annotation)
  | call (function : NodeId) (inputs : List NodeId)
  | convert (expression : NodeId) (type : Annotation)
  /-- The value a stream had `count` values ago. -/
  | previous (stream count : NodeId)
  /-- Whether the stream caused the current pass. -/
  | changed (stream : NodeId)
  /-- `initial` first; later `next` whenever the condition holds. -/
  | reaction (initial condition next : NodeId)
  /-- Source that was not understood. -/
  | unparsable (text : String)
  deriving Inhabited

namespace Construct

/-- Children in the order of source and evaluation. Mirrors quill-types/ast:284-322 (`children`). -/
def children : Construct → List NodeId
  | program body => [body]
  | block statements => statements
  | binding _ _ value => value.toList
  | functionDef _ inputs _ body => inputs ++ body.toList
  | structureDef _ inputs body => inputs ++ body.toList
  | conversionDef _ _ body => [body]
  | list items | set items => items
  | map entries => entries.flatMap fun e => [e.1, e.2]
  | property subject _ => [subject]
  | item subject index => [subject, index]
  | binary left _ right => [left, right]
  | unary _ operand => [operand]
  | conditional condition yes no => [condition, yes, no]
  | typeTest expression _ | convert expression _ => [expression]
  | call function inputs => function :: inputs
  | previous stream count => [stream, count]
  | changed stream => [stream]
  | reaction initial condition next => [initial, condition, next]
  | boolean _ | number _ _ | text _ | nothing | reference _ | thisValue | unparsable _ => []

/-- The name that the construct brings into the scope around it. Mirrors quill-types/ast:325-332
(`defined_name`). -/
def definedName? : Construct → Option String
  | binding name _ _ | functionDef name _ _ _ | structureDef name _ _ => some name
  | _ => none

/-- Bindings and definitions change the scope they stand in. Mirrors quill-types/ast:335-343
(`is_definition`). -/
def isDefinition : Construct → Bool
  | binding _ _ _ | functionDef _ _ _ _ | structureDef _ _ _ | conversionDef _ _ _ => true
  | _ => false

/-- The construct's name in descriptions. Mirrors quill-types/ast:347-377 (`descriptor`). -/
def descriptor : Construct → String
  | program _ => "Program"
  | block _ => "Block"
  | binding _ _ _ => "Bind"
  | functionDef _ _ _ _ => "FunctionDefinition"
  | structureDef _ _ _ => "StructureDefinition"
  | conversionDef _ _ _ => "ConversionDefinition"
  | boolean _ => "BooleanLiteral"
  | number _ _ => "NumberLiteral"
  | text _ => "TextLiteral"
  | nothing => "NoneLiteral"
  | list _ => "ListLiteral"
  | set _ => "SetLiteral"
  | map _ => "MapLiteral"
  | reference _ => "Reference"
  | property _ _ => "PropertyAccess"
  | item _ _ => "ListAccess"
  | thisValue => "This"
  | binary _ _ _ => "BinaryOperation"
  | unary _ _ => "UnaryOperation"
  | conditional _ _ _ => "Conditional"
  | typeTest _ _ => "Is"
  | call _ _ => "Evaluate"
  | convert _ _ => "Convert"
  | previous _ _ => "Previous"
  | changed _ => "Changed"
  | reaction _ _ _ => "Reaction"
  | unparsable _ => "Unparsable"

end Construct

/-- A construct and where it was read. Mirrors quill-types/ast:382-385. -/
structure Node where
  construct : Construct
  span : Span
  deriving Inhabited

end ReactiveLang
