import ReactiveLang.Analysis.Typing

/-!
# What can be said of a tree before it runs

An `Analysis` is a tree with the types of its nodes. It answers what a name, a property or a call
refers to.
-/

namespace ReactiveLang

/-- What a call calls, when that is clear from the source. Mirrors quill-analysis/context:30-35. -/
inductive Callee where
  | function (id : NodeId)
  | structureDef (id : NodeId)
  | stream (kind : StreamKind)
  | text (method : TextMethod)
  deriving DecidableEq

/-- A member that can be called. Mirrors quill-analysis/context:449-453. -/
def Tree.calledMember? (t : Tree) (member : NodeId) : Option Callee :=
  match t.construct member with
  | .functionDef _ _ _ _ => some (.function member)
  | .structureDef _ _ _ => some (.structureDef member)
  | _ => none

namespace Inquiry

variable (t : Tree)

/-- Which of some nodes read a definition, with what they read. Mirrors
quill-analysis/context:411-421, in pairs of a definition and a node that reads it. -/
def readings : List NodeId → Inquiry (List (NodeId × NodeId))
  | [] => pure []
  | id :: rest => do
    let read ← referent? t id
    let others ← readings rest
    pure ((read.toList.map fun definition => (definition, id)) ++ others)

/-- What the function of a call is, when that is clear. Mirrors quill-analysis/context:440-461. -/
def calledBy? (function : NodeId) : Inquiry (Option Callee) :=
  match t.construct function with
  | .reference _ => do
    match ← lookUp function with
    | some (.function id) => pure (some (.function id))
    | some (.structureDef id) => pure (some (.structureDef id))
    | some (.stream kind) => pure (some (.stream kind))
    | _ => pure none
  | .property subject name => do
    match ← memberOf t function with
    | some member => pure (t.calledMember? member)
    | none =>
      match ← valueType subject with
      | .text => pure ((TextMethod.ofName? name).map .text)
      | _ => pure none
  | _ => pure none

/-- What a call calls, when that is clear. Mirrors quill-analysis/context:436-462 (`callee`). -/
def callee (id : NodeId) : Inquiry (Option Callee) :=
  match t.construct id with
  | .call function _ => calledBy? t function
  | _ => pure none

end Inquiry

/-- The nodes among some readings that read a definition. Mirrors quill-analysis/context:423. -/
def readersOf (definition : NodeId) (readings : List (NodeId × NodeId)) : List NodeId :=
  (readings.filter fun reading => reading.1 = definition).map fun reading => reading.2

structure Analysis where
  tree : Tree
  /-- The type of each node, in the order of the store. -/
  types : Array Ty

namespace Analysis

def ofTree (t : Tree) : Analysis := ⟨t, t.allTypes⟩

@[simp] theorem tree_ofTree (t : Tree) : (ofTree t).tree = t := rfl

variable (a : Analysis)

def typeOf (id : NodeId) : Ty := a.types[id.index]?.getD .nothing

/-- The answer to an inquiry by the types that are known. -/
def given {α : Type} : Inquiry α → α
  | .answer value => value
  | .typeOf id next => given (next (a.typeOf id))
  | .resolve reference next => given (next (a.tree.resolve reference))

/-- The type of a node's value as an operand. -/
def valueType (id : NodeId) : Ty := a.given (Inquiry.valueType id)

/-- What a bind declares: its annotation, else the type of its value. -/
def declaredType (bind : NodeId) : Ty := a.given (Inquiry.declaredType a.tree bind)

/-- The type of a bind where it is read. -/
def narrow (access bind : NodeId) (declared : Ty) : Ty :=
  a.given (Inquiry.narrow a.tree access bind declared)

/-- The member of a structure that a property reads. -/
def memberOf (access : NodeId) : Option NodeId := a.given (Inquiry.memberOf a.tree access)

/-- The bind that an expression reads, by name or as a property. -/
def bindingOf (expression : NodeId) : Option NodeId :=
  a.given (Inquiry.bindingOf a.tree expression)

/-- The nodes that read a definition, each with what it reads, parents first. -/
def readings : List (NodeId × NodeId) := a.given (Inquiry.readings a.tree a.tree.reachable)

/-- The references and properties that read a definition, parents first. -/
def referencesTo (definition : NodeId) : List NodeId := readersOf definition a.readings

/-- What a call calls, when that is clear. -/
def callee (id : NodeId) : Option Callee := a.given (Inquiry.callee a.tree id)

end Analysis
end ReactiveLang
