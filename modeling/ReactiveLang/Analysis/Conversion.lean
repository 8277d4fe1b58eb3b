import ReactiveLang.Analysis.Annotated

/-!
# Choosing a conversion

A conversion is looked for among the members of a structure that is converted, then in the blocks
around the place where it is wanted, nearest first, then among the built-in ones. Of a union, each
member is tried in turn.
-/

namespace ReactiveLang

/-- Mirrors quill-analysis/context:39-43. -/
inductive Conversion where
  /-- A definition in the tree. -/
  | defined (id : NodeId)
  | native (conversion : NativeConversion)
  deriving DecidableEq

/-- A conversion with the type it gives. Mirrors quill-analysis/context:47-50. -/
structure ConversionMatch where
  conversion : Conversion
  output : Ty

namespace Tree

variable (t : Tree)

/-- A statement that defines a suitable conversion: it takes the input, and what it gives may be
used as the output. Mirrors quill-analysis/context:513-526. -/
def definedConversionAt? (input output : Ty) (statement : NodeId) : Option ConversionMatch :=
  match t.construct statement with
  | .conversionDef taken given _ =>
    let given := t.annotationType statement given
    if (t.annotationType statement taken).accepts input && output.accepts given then
      some ⟨.defined statement, given⟩
    else none
  | _ => none

/-- Mirrors quill-analysis/context:506-528 (`defined_conversion`). -/
def definedConversion? (statements : List NodeId) (output input : Ty) : Option ConversionMatch :=
  statements.findSome? (t.definedConversionAt? input output)

/-- The structure's own conversions. Mirrors quill-analysis/context:479-486. -/
def memberConversion? (output input : Ty) : Option ConversionMatch :=
  match input with
  | .instanceOf definition _ => t.definedConversion? (t.structureStatements definition) output input
  | _ => none

/-- Mirrors quill-analysis/context:498-503. -/
def nativeConversion? (output input : Ty) : Option ConversionMatch :=
  (NativeConversion.find? input output).map fun c => ⟨.native c, c.outputType input⟩

/-- The conversion from one type to another that is seen at a node. Mirrors
quill-analysis/context:473-504 (`conversion`). -/
def conversion? (input output : Ty) (at_ : NodeId) : Option ConversionMatch :=
  if input.isUnknown || output.isUnknown then none
  else
    let members := input.members
    (members.findSome? (t.memberConversion? output)).or
      (((t.ancestors at_).findSome? fun ancestor =>
          members.findSome? (t.definedConversion? (t.statements ancestor) output)).or
        (members.findSome? (nativeConversion? output)))

end Tree
end ReactiveLang
