import ReactiveLang.Syntax.Tree
import ReactiveLang.Basis

/-!
# Names and scopes

A name is looked up from the node that uses it: at each ancestor, nearest first, among the inputs
of functions and structures and the statements of blocks, and last among the definitions of
streams. There is no stack of scopes.
-/

namespace ReactiveLang

/-- What a name stands for. Mirrors quill-analysis/env:18-26. -/
inductive Definition where
  /-- A bind of a block or a structure, or an input. -/
  | binding (id : NodeId)
  | function (id : NodeId)
  | structureDef (id : NodeId)
  | stream (kind : StreamKind)
  deriving DecidableEq

/-- The node of a definition that stands in the tree. Mirrors quill-analysis/env:39-44. -/
def Definition.node? : Definition → Option NodeId
  | binding id | function id | structureDef id => some id
  | stream _ => none

/-- The definition whose body a node's code runs in. Mirrors quill-analysis/env:53-62. -/
inductive Scope where
  | program
  | function (id : NodeId)
  | structureDef (id : NodeId)
  | conversion (id : NodeId)
  deriving DecidableEq

namespace Tree

variable (t : Tree)

/-- The scope that a definition opens for what is in it. -/
def scopeOf? (id : NodeId) : Option Scope :=
  match t.construct id with
  | .functionDef _ _ _ _ => some (.function id)
  | .structureDef _ _ _ => some (.structureDef id)
  | .conversionDef _ _ _ => some (.conversion id)
  | _ => none

/-- The innermost scope around a node. Mirrors quill-analysis/env:65-75 (`enclosing_scope`). -/
def enclosingScope (id : NodeId) : Scope :=
  ((t.ancestors id).findSome? t.scopeOf?).getD .program

/-- The first of some nodes that defines the name. Mirrors
quill-analysis/env:82-87 (`find_named`). -/
def findNamed (ids : List NodeId) (name : String) : Option NodeId :=
  ids.find? fun id => (t.construct id).definedName? = some name

/-- Mirrors quill-analysis/env:29-36 (`of`). -/
def definitionOf? (id : NodeId) : Option Definition :=
  match t.construct id with
  | .binding _ _ _ => some (.binding id)
  | .functionDef _ _ _ _ => some (.function id)
  | .structureDef _ _ _ => some (.structureDef id)
  | _ => none

/-- What an ancestor brings into scope under the name. -/
def introduced? (name : String) (ancestor : NodeId) : Option Definition :=
  match t.construct ancestor with
  | .functionDef _ inputs _ _ => (t.findNamed inputs name).bind t.definitionOf?
  | .structureDef _ inputs _ => (t.findNamed inputs name).bind t.definitionOf?
  | .block statements => (t.findNamed statements name).bind t.definitionOf?
  | _ => none

/-- What `name` stands for at a node. Mirrors quill-analysis/env:94-107 (`resolve_name`). -/
def resolveName (name : String) (at_ : NodeId) : Option Definition :=
  ((t.ancestors at_).findSome? (t.introduced? name)).or
    ((StreamKind.ofName? name).map .stream)

/-- What a reference stands for. Mirrors quill-analysis/context:365-376 (`resolve`). -/
def resolve (reference : NodeId) : Option Definition :=
  match t.construct reference with
  | .reference name => t.resolveName name reference
  | _ => none

/-- The statements of a block. -/
def statements (block : NodeId) : List NodeId :=
  match t.construct block with
  | .block statements => statements
  | _ => []

/-- The inputs of a function or structure. Mirrors quill-analysis/context:427-433 (`inputs_of`). -/
def inputsOf (definition : NodeId) : List NodeId :=
  match t.construct definition with
  | .functionDef _ inputs _ _ => inputs
  | .structureDef _ inputs _ => inputs
  | _ => []

/-- The statements of a structure's body. Mirrors quill-analysis/env:125-133
(`structure_statements`). -/
def structureStatements (definition : NodeId) : List NodeId :=
  match t.construct definition with
  | .structureDef _ _ (some body) => t.statements body
  | _ => []

/-- A member of a structure: an input, or a statement of its body. Mirrors
quill-analysis/env:110-122 (`structure_member`). -/
def structureMember? (definition : NodeId) (name : String) : Option NodeId :=
  match t.construct definition with
  | .structureDef _ inputs _ =>
    (t.findNamed inputs name).or (t.findNamed (t.structureStatements definition) name)
  | _ => none

/-- The block is the body of a structure. Mirrors
quill-analysis/env:136-140 (`is_structure_body`). -/
def isStructureBody (block : NodeId) : Bool :=
  match t.parent? block with
  | none => false
  | some parent =>
    match t.construct parent with
    | .structureDef _ _ (some body) => body = block
    | _ => false

def isBinding (id : NodeId) : Bool :=
  match t.construct id with
  | .binding _ _ _ => true
  | _ => false

/-- A bind with a value. -/
def hasDefault (id : NodeId) : Bool :=
  match t.construct id with
  | .binding _ _ (some _) => true
  | _ => false

end Tree
end ReactiveLang
