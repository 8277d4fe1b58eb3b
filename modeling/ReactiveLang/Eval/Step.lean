import ReactiveLang.Syntax.Tree
import ReactiveLang.Analysis.Scope

/-!
# Steps

A node's code is a sequence of steps from its start to its finish, with the code of its children
between them. Jumps count the steps that they skip.

* a condition: `start`, the condition, `jumpIf` over `yes` and its jump, `yes`, `jump` over `no`,
  `no`, `finish`;
* a reaction: `start`, `check`, the initial value, `jump` over the rest, the condition, `jumpIf`
  over the next value, the next value, `finish`.

Definitions hold no code of their bodies: a call runs the defaults of the inputs that were left
out, then the body.
-/

namespace ReactiveLang

/-- Mirrors quill-eval/step:27-35. -/
inductive Step where
  | start (node : NodeId)
  /-- A reaction chooses between its initial value and its condition. -/
  | check (node : NodeId)
  | jump (node : NodeId) (count : Nat)
  /-- Takes a boolean and jumps if it is `when`. -/
  | jumpIf (node : NodeId) (count : Nat) (when : Bool)
  | finish (node : NodeId)
  deriving DecidableEq, Inhabited

/-- The node that the step belongs to. -/
def Step.node : Step → NodeId
  | start node | check node | jump node _ | jumpIf node _ _ | finish node => node

namespace Tree

variable (t : Tree)

/-- The steps between a node's start and its finish, for some code of its children. Mirrors
quill-eval/step:144-192. -/
def innerCode (code : NodeId → List Step) (id : NodeId) : List Step :=
  match t.construct id with
  | .conditional condition yes no =>
    code condition ++ .jumpIf id ((code yes).length + 1) false :: code yes ++
      .jump id (code no).length :: code no
  | .reaction initial condition next =>
    .check id :: code initial ++
      .jump id ((code condition).length + 1 + (code next).length) :: code condition ++
      .jumpIf id (code next).length false :: code next
  | .functionDef _ _ _ _ => []
  | .structureDef _ _ _ => []
  | .conversionDef _ _ _ => []
  | construct => construct.children.flatMap code

/-- The code of a node, for trees of at most that depth. -/
def codeWithin : Nat → NodeId → List Step
  | 0, _ => []
  | depth + 1, id => .start id :: t.innerCode (codeWithin depth) id ++ [.finish id]

/-- The code of a node. Mirrors quill-eval/step:142-195 (`compile`). -/
def code (id : NodeId) : List Step := t.codeWithin t.nodes.size id

/-- The body that a call of a definition runs. -/
def bodyOf? (definition : NodeId) : Option NodeId :=
  match t.construct definition with
  | .functionDef _ _ _ body => body
  | .structureDef _ _ body => body
  | .conversionDef _ _ body => some body
  | _ => none

/-- What a call runs when the first `provided` inputs are given: the defaults of the others, then
the body. -/
def calledNodes (definition : NodeId) (provided : Nat) : List NodeId :=
  ((t.inputsOf definition).drop provided).filter t.hasDefault ++ (t.bodyOf? definition).toList

/-- The code of a call. Mirrors quill-eval/step:197-214 (`compile_call`). -/
def callCode (definition : NodeId) (provided : Nat) : List Step :=
  (t.calledNodes definition provided).flatMap t.code

end Tree

/-! ## Prepared code -/

/-- The code of the nodes of a tree, prepared for those that the root reaches. Mirrors
quill-eval/step:113-115, with all sequences at once. -/
structure Code where
  tree : Tree
  prepared : Array (Option (Array Step))

namespace Code

def ofTree (t : Tree) : Code :=
  ⟨t, t.reachable.foldl
    (fun prepared id => prepared.setIfInBounds id.index (some (t.code id).toArray))
    (Array.replicate t.nodes.size none)⟩

variable (c : Code)

/-- The code of a node. -/
def ofNode (id : NodeId) : Array Step :=
  match c.prepared[id.index]?.join with
  | some steps => steps
  | none => (c.tree.code id).toArray

/-- The number of steps of a node. Mirrors quill-eval/step:138-140 (`len`). -/
def length (id : NodeId) : Nat := (c.ofNode id).size

/-- One sequence after the other; a single one as it is. -/
def join : List (Array Step) → Array Step
  | [] => #[]
  | [steps] => steps
  | steps :: rest => steps ++ join rest

/-- The code of a call. -/
def ofCall (definition : NodeId) (provided : Nat) : Array Step :=
  join ((c.tree.calledNodes definition provided).map c.ofNode)

end Code
end ReactiveLang
