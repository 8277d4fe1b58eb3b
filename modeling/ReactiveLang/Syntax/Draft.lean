import ReactiveLang.Syntax.Tree

/-!
# Drafts

A draft is a store of nodes that is still growing. `finish` makes a tree of it when every node the
root reaches is the child of one node only and the root of none.
-/

namespace ReactiveLang

/-- Why a draft is no tree. Mirrors quill-types/error:9-29. -/
inductive TreeError where
  | missingChild (parent child : NodeId)
  | sharedChild (child first second : NodeId)
  | rootNotProgram (root : NodeId)
  | missingNode (id : NodeId)
  deriving DecidableEq

def TreeError.message : TreeError → String
  | missingChild parent child =>
    "node " ++ parent.render ++ " refers to missing child " ++ child.render
  | sharedChild child first second =>
    "node " ++ child.render ++ " has two parents: " ++ first.render ++ " and " ++ second.render
  | rootNotProgram root => "root " ++ root.render ++ " is not a program"
  | missingNode id => "cannot replace missing node " ++ id.render

/-- Mirrors quill-types/ast:513-515. -/
structure Draft where
  nodes : Array Node
  deriving Inhabited

namespace Draft

def empty : Draft := ⟨#[]⟩

/-- Puts a node at the end of the store. Mirrors quill-types/ast:526-530 (`add_spanned`). -/
def addSpanned (d : Draft) (construct : Construct) (span : Span) : NodeId × Draft :=
  (⟨d.nodes.size⟩, ⟨d.nodes.push ⟨construct, span⟩⟩)

def add (d : Draft) (construct : Construct) : NodeId × Draft := d.addSpanned construct .zero

/-- Changes a node's construct and keeps its span. Mirrors quill-types/ast:533-540 (`replace`). -/
def replace (d : Draft) (id : NodeId) (construct : Construct) : Except TreeError Draft :=
  match d.nodes[id.index]? with
  | some node => .ok ⟨d.nodes.setIfInBounds id.index ⟨construct, node.span⟩⟩
  | none => .error (.missingNode id)

def construct (d : Draft) (id : NodeId) : Construct :=
  match d.nodes[id.index]? with
  | some node => node.construct
  | none => .nothing

/-- Makes `parent` the parent of each child, unless one is missing or has a parent already. Mirrors
quill-types/ast:553-570. -/
def claim (root parent : NodeId) :
    List NodeId → Array (Option NodeId) → Except TreeError (Array (Option NodeId))
  | [], parents => .ok parents
  | child :: rest, parents =>
    match parents[child.index]? with
    | none => .error (.missingChild parent child)
    | some (some first) => .error (.sharedChild child first parent)
    | some none =>
      if child = root then .error (.sharedChild child root parent)
      else claim root parent rest (parents.setIfInBounds child.index (some parent))

/-- Visits the nodes of a stack, and puts the children of each on it, the last one on top. -/
def parentsFrom (d : Draft) (root : NodeId) :
    Nat → List NodeId → Array (Option NodeId) → Except TreeError (Array (Option NodeId))
  | 0, _, parents => .ok parents
  | _ + 1, [], parents => .ok parents
  | fuel + 1, parent :: stack, parents =>
    let children := (d.construct parent).children
    match claim root parent children parents with
    | .error e => .error e
    | .ok parents => parentsFrom d root fuel (children.reverse ++ stack) parents

/-- The tree under `root`. Each visited node but the root has got a parent, so there are at most as
many visits as nodes. Mirrors quill-types/ast:543-583 (`finish`). -/
def finish (d : Draft) (root : NodeId) : Except TreeError Tree :=
  match d.construct root with
  | .program _ =>
    match d.parentsFrom root (d.nodes.size + 1) [root] (Array.replicate d.nodes.size none) with
    | .ok parents => .ok ⟨d.nodes, parents, root⟩
    | .error e => .error e
  | _ => .error (.rootNotProgram root)

/-- A name that is called. Mirrors quill-types/ast:670-673 (`call`). -/
def call (d : Draft) (name : String) (inputs : List NodeId) : NodeId × Draft :=
  let (function, d) := d.add (.reference name)
  d.add (.call function inputs)

/-- A property that is called. Mirrors quill-types/ast:676-679 (`method`). -/
def method (d : Draft) (subject : NodeId) (name : String) (inputs : List NodeId) :
    NodeId × Draft :=
  let (function, d) := d.add (.property subject name)
  d.add (.call function inputs)

/-- A structure, with a block for its members if there are any. Mirrors quill-types/ast:740-747
(`structure`). -/
def structureDef (d : Draft) (name : String) (inputs : List NodeId)
    (members : Option (List NodeId)) : NodeId × Draft :=
  match members with
  | none => d.add (.structureDef name inputs none)
  | some members =>
    let (body, d) := d.add (.block members)
    d.add (.structureDef name inputs (some body))

/-- The tree of a program with those statements. Mirrors quill-types/ast:768-772 (`program`). -/
def program (d : Draft) (statements : List NodeId) : Except TreeError Tree :=
  let (block, d) := d.add (.block statements)
  let (root, d) := d.add (.program block)
  d.finish root

end Draft

namespace Tree

/-- A draft with this tree's nodes. Mirrors quill-types/ast:473-477 (`edit`). -/
def edit (t : Tree) : Draft := ⟨t.nodes⟩

/-- The tree with another construct at one place. Mirrors quill-types/ast:480-484
(`with_replacement`). -/
def withReplacement (t : Tree) (id : NodeId) (construct : Construct) : Except TreeError Tree :=
  match t.edit.replace id construct with
  | .ok d => d.finish t.root
  | .error e => .error e

end Tree
end ReactiveLang
