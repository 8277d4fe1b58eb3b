import ReactiveLang.Analysis.Scope

/-!
# Types that are written down

What an annotation means at the node that carries it, the type of a structure's instances, and the
type of `this`. None of these needs the type of another node.
-/

namespace ReactiveLang.Tree

variable (t : Tree)

/-- The type of a structure's instances. Mirrors
quill-analysis/context:163-171 (`structure_type`). -/
def structureType (definition : NodeId) : Ty :=
  .instanceOf definition (((t.construct definition).definedName?).getD "")

mutual

/-- The type that an annotation names, seen from a node. Mirrors quill-analysis/context:133-160
(`annotation_type`). -/
def annotationType (at_ : NodeId) : Annotation → Ty
  | .boolean => .boolean
  | .text => .text
  | .number unit => .measurement unit
  | .nothing => .nothing
  | .list item => .list (annotationType at_ item)
  | .set item => .set (annotationType at_ item)
  | .map key value => .map (annotationType at_ key) (annotationType at_ value)
  | .stream item => .stream (annotationType at_ item)
  | .union left right => .union (annotationType at_ left) (annotationType at_ right)
  | .named name =>
    match t.resolveName name at_ with
    | some (.structureDef definition) => t.structureType definition
    | _ => .unknown .unresolved
  | .function inputs output => .function (annotationTypes at_ inputs) (annotationType at_ output)
  | .unparsable => .unknown .unparsable

def annotationTypes (at_ : NodeId) : List Annotation → List Ty
  | [] => []
  | a :: rest => annotationType at_ a :: annotationTypes at_ rest

end

/-- What `this` is inside a conversion or a structure; nothing elsewhere. -/
def thisTypeAt? (ancestor : NodeId) : Option Ty :=
  match t.construct ancestor with
  | .conversionDef input _ _ => some (t.annotationType ancestor input)
  | .structureDef _ _ _ => some (t.structureType ancestor)
  | _ => none

/-- The type of `this` at a node. Mirrors quill-analysis/context:318-329 (`this_type`). -/
def thisType (id : NodeId) : Ty :=
  ((t.ancestors id).findSome? t.thisTypeAt?).getD (.unknown .unresolved)

end ReactiveLang.Tree
