import ReactiveLang.Measure

/-!
# Types as they are written
-/

namespace ReactiveLang

/-- A type in source. Names are resolved from the node that carries it. Mirrors
quill-types/ast:114-142. -/
inductive Annotation where
  | boolean
  | text
  /-- A number of that unit, or of any unit. -/
  | number (unit : Option MeasureUnit)
  | nothing
  | list (item : Annotation)
  | set (item : Annotation)
  | map (key value : Annotation)
  | stream (item : Annotation)
  | union (left right : Annotation)
  /-- The name of a structure. -/
  | named (name : String)
  | function (inputs : List Annotation) (output : Annotation)
  /-- Source that was not understood. -/
  | unparsable
  deriving Inhabited

namespace Annotation

mutual

/-- Some part of the annotation was not understood. Mirrors quill-types/ast:174-184
(`is_unparsable`). -/
def isUnparsable : Annotation → Bool
  | unparsable => true
  | list t | set t | stream t => isUnparsable t
  | map a b | union a b => isUnparsable a || isUnparsable b
  | function inputs output => anyUnparsable inputs || isUnparsable output
  | boolean | text | number _ | nothing | named _ => false

def anyUnparsable : List Annotation → Bool
  | [] => false
  | a :: rest => isUnparsable a || anyUnparsable rest

end

end Annotation
end ReactiveLang
