import ReactiveLang.Analysis.Dependencies
import ReactiveLang.Analysis.Rules

/-!
# Queries

What a context can be asked. It answers with what it remembers and what it works out, where
`Analysis.answer` looks at a table of all types.
-/

namespace ReactiveLang

inductive Query where
  | typeOf (id : NodeId)
  | valueType (id : NodeId)
  | declaredType (id : NodeId)
  | conflictsOf (id : NodeId)
  | conflicts
  | callee (id : NodeId)
  | bindingOf (id : NodeId)
  | memberOf (id : NodeId)
  | resolve (id : NodeId)
  | referencesTo (id : NodeId)
  | streamDependencies (id : NodeId)

inductive Reply where
  | type (type : Ty)
  | conflicts (found : List Conflict)
  | callee (callee : Option Callee)
  | node (id : Option NodeId)
  | nodes (ids : List NodeId)
  | definition (found : Option Definition)
  deriving DecidableEq

/-- The answer of an analysis. -/
def Analysis.answer (a : Analysis) : Query → Reply
  | .typeOf id => .type (a.typeOf id)
  | .valueType id => .type (a.valueType id)
  | .declaredType id => .type (a.declaredType id)
  | .conflictsOf id => .conflicts (a.conflictsOf id)
  | .conflicts => .conflicts a.conflicts
  | .callee id => .callee (a.callee id)
  | .bindingOf id => .node (a.bindingOf id)
  | .memberOf id => .node (a.memberOf id)
  | .resolve id => .definition (a.tree.resolve id)
  | .referencesTo id => .nodes (a.referencesTo id)
  | .streamDependencies id => .nodes (a.streamDependencies id)

namespace Context

variable (t : Tree)

/-- Follows an inquiry with the types and definitions that the context has or works out. -/
def consult {α : Type} (inquiry : Inquiry α) : Consulting α :=
  inquiry.follow (typeOf t) (resolve t)

/-- The nodes that read a definition, each with what it reads. Mirrors
quill-analysis/context:408-424 (`references_to`). -/
def readings : Consulting (List (NodeId × NodeId)) :=
  recalling (fun c => c.references) noteReferences (consult t (Inquiry.readings t t.reachable))

/-- Mirrors quill-analysis/context:537-547 (`stream_dependencies`). -/
def streamDependencies (id : NodeId) : Consulting (List NodeId) :=
  recalling (fun c => c.dependencies.find? id) (fun c found => c.noteDependencies id found)
    (consult t (Inquiry.streamDependencies t id))

/-- What is wrong with a node, worked out anew. Mirrors quill-analysis/checker:23-30
(`node_conflicts`). -/
def checked (id : NodeId) : Consulting (List Conflict) := do
  let found ← consult t (Inquiry.findings t id)
  if t.mustBeRead id then
    let readings ← readings t
    pure (found ++ unreadConflicts id readings)
  else pure found

/-- Mirrors quill-analysis/context:629-637 (`conflicts_of`). -/
def conflictsOf (id : NodeId) : Consulting (List Conflict) :=
  recalling (fun c => c.conflicts.find? id) (fun c found => c.noteConflicts id found)
    (checked t id)

/-- What is wrong with some nodes, one after the other. Mirrors quill-analysis/context:640-651
(`conflicts`). -/
def conflictsAmong : List NodeId → Consulting (List Conflict)
  | [] => pure []
  | id :: rest => do
    let here ← conflictsOf t id
    let others ← conflictsAmong rest
    pure (here ++ others)

def reply : Query → Consulting Reply
  | .typeOf id => do
    let type ← typeOf t id
    pure (.type type)
  | .valueType id => do
    let type ← consult t (Inquiry.valueType id)
    pure (.type type)
  | .declaredType id => do
    let type ← consult t (Inquiry.declaredType t id)
    pure (.type type)
  | .conflictsOf id => do
    let found ← conflictsOf t id
    pure (.conflicts found)
  | .conflicts => do
    let found ← conflictsAmong t t.reachable
    pure (.conflicts found)
  | .callee id => do
    let callee ← consult t (Inquiry.callee t id)
    pure (.callee callee)
  | .bindingOf id => do
    let bind ← consult t (Inquiry.bindingOf t id)
    pure (.node bind)
  | .memberOf id => do
    let member ← consult t (Inquiry.memberOf t id)
    pure (.node member)
  | .resolve id => do
    let found ← resolve t id
    pure (.definition found)
  | .referencesTo id => do
    let readings ← readings t
    pure (.nodes (readersOf id readings))
  | .streamDependencies id => do
    let found ← streamDependencies t id
    pure (.nodes found)

/-- The replies to queries that are made one after the other. -/
def replies : List Query → Consulting (List Reply)
  | [] => pure []
  | query :: rest => do
    let here ← reply t query
    let others ← replies rest
    pure (here :: others)

end Context
end ReactiveLang
