import ReactiveLang.Syntax.Node

/-!
# Trees

A tree is a store of nodes, a root, and each node's parent. Nodes that the root does not reach
stay in the store and have no parent. `descendants` walks down and `ancestors` walks up; their
fuel is the size of the store, which no path in a tree exceeds.
-/

namespace ReactiveLang

/-- Mirrors quill-types/ast:393-397. -/
structure Tree where
  nodes : Array Node
  parents : Array (Option NodeId)
  root : NodeId
  deriving Inhabited

namespace Tree

variable (t : Tree)

/-- The construct at a place; outside the store there is nothing. -/
def construct (id : NodeId) : Construct :=
  match t.nodes[id.index]? with
  | some node => node.construct
  | none => .nothing

def span (id : NodeId) : Span :=
  match t.nodes[id.index]? with
  | some node => node.span
  | none => .zero

def children (id : NodeId) : List NodeId := (t.construct id).children

def parent? (id : NodeId) : Option NodeId := t.parents[id.index]?.join

/-- The block of the program's statements. Mirrors quill-types/ast:405-411 (`program_block`). -/
def programBlock : NodeId :=
  match t.construct t.root with
  | .program block => block
  | _ => t.root

/-- The next `fuel` nodes on the way up. -/
def ancestorsFrom : Nat → NodeId → List NodeId
  | 0, _ => []
  | fuel + 1, id =>
    match t.parent? id with
    | some parent => parent :: ancestorsFrom fuel parent
    | none => []

/-- From the parent to the root. Mirrors quill-types/ast:434-439 (`ancestors`). -/
def ancestors (id : NodeId) : List NodeId := t.ancestorsFrom t.nodes.size id

/-- The node and what is beneath it down to a depth, parents first and children in order. -/
def descendantsTo : Nat → NodeId → List NodeId
  | 0, _ => []
  | depth + 1, id => id :: (t.children id).flatMap (descendantsTo depth)

/-- The node and everything beneath it, parents first and children in order. Mirrors
quill-types/ast:447-456 (`descendants`). -/
def descendants (id : NodeId) : List NodeId := t.descendantsTo t.nodes.size id

/-- The node is `ancestor` or beneath it. Mirrors quill-types/ast:442-444 (`is_within`). -/
def isWithin (id ancestor : NodeId) : Bool :=
  id = ancestor || (t.ancestors id).contains ancestor

/-- Every node the root reaches. Mirrors quill-types/ast:459-461 (`nodes`). -/
def reachable : List NodeId := t.descendants t.root

def size : Nat := t.reachable.length

end Tree
end ReactiveLang
