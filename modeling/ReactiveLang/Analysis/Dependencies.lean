import ReactiveLang.Ascending
import ReactiveLang.Analysis.Basic

/-!
# What a value depends on

A node may read streams, reactions and tests for changes: those beneath it, and those beneath
what it refers to. `streamDependencies` finds them all, and `isMemoizable` says which values may
outlive the pass that computed them.
-/

namespace ReactiveLang

/-- What a node adds to what a value depends on. -/
inductive Lead where
  /-- The node makes a stream, keeps a value between passes, or tests what changed. -/
  | read
  /-- The code of a definition, which the node may run or read. -/
  | definition (id : NodeId)

namespace Inquiry

variable (t : Tree)

/-- The conversion in the tree that a conversion expression uses. Mirrors
quill-analysis/context:582-596 (`convert_target`). -/
def conversionTarget? (id : NodeId) : Inquiry (Option NodeId) :=
  match t.construct id with
  | .convert expression annotation => do
    let input ← valueType expression
    match t.conversion? input (t.annotationType id annotation) id with
    | some ⟨.defined definition, _⟩ => pure (some definition)
    | _ => pure none
  | _ => pure none

/-- Where a node leads by itself, without the nodes beneath it. Mirrors
quill-analysis/context:556-573. -/
def lead? (id : NodeId) : Inquiry (Option Lead) :=
  match t.construct id with
  | .call _ _ => do
    match ← callee t id with
    | some (.stream _) => pure (some .read)
    | some (.function definition) => pure (some (.definition definition))
    | some (.structureDef definition) => pure (some (.definition definition))
    | _ => pure none
  | .reaction _ _ _ | .changed _ => pure (some .read)
  | .convert _ _ => do
    let target ← conversionTarget? t id
    pure (target.map .definition)
  | _ => do
    let target ← referent? t id
    pure (target.map .definition)

/-- The nodes among some that read, and the definitions that the others lead to. Each definition
that was not seen before is named once. Mirrors quill-analysis/context:555-579. -/
def leads (seen : List NodeId) : List NodeId → Inquiry (List NodeId × List NodeId)
  | [] => pure ([], [])
  | id :: rest => do
    match ← lead? t id with
    | some .read => do
      let (reads, definitions) ← leads seen rest
      pure (id :: reads, definitions)
    | some (.definition target) => do
      if seen.contains target then leads seen rest
      else
        let (reads, definitions) ← leads (target :: seen) rest
        pure (reads, target :: definitions)
    | none => leads seen rest

/-- Collects the reads beneath the pending nodes and beneath what they lead to; `seen` are the
definitions that were pending before. Each turn sees one more node, so the fuel is the number of
nodes. Mirrors quill-analysis/context:549-580 (`collect_dependencies`), with the recursion as a list
of pending definitions. -/
def collectReads : Nat → List NodeId → List NodeId → List NodeId → Inquiry (List NodeId)
  | 0, _, _, found => pure found
  | _ + 1, [], _, found => pure found
  | fuel + 1, id :: pending, seen, found => do
    let (reads, next) ← leads t seen (t.descendants id)
    collectReads fuel (next ++ pending) (next ++ seen) (Ascending.union found reads)

/-- The stream-making calls, reactions and tests for changes that a node's value may come from, in
ascending order. Mirrors quill-analysis/context:537-547 (`stream_dependencies`). -/
def streamDependencies (id : NodeId) : Inquiry (List NodeId) :=
  collectReads t (t.nodes.size + 1) [id] [] []

end Inquiry

namespace Analysis

variable (a : Analysis)

/-- The stream-making calls, reactions and tests for changes that a node's value may come from,
in ascending order. -/
def streamDependencies (id : NodeId) : List NodeId :=
  a.given (Inquiry.streamDependencies a.tree id)

/-- The node changes or tests the state of the pass itself. Mirrors quill-analysis/context:616-621.
-/
def isPassBound (id : NodeId) : Bool :=
  match a.tree.construct id with
  | .changed _ => true
  | .reaction _ _ _ => true
  | .binding _ _ _ => true
  | _ => false

/-- A value of the node may be used again in a later pass in which none of its dependencies changed:
an expression of the program's own scope that neither binds names nor asks what started the pass.
Mirrors quill-analysis/context:604-622 (`is_memoizable`). -/
def isMemoizable (id : NodeId) : Bool :=
  let construct := a.tree.construct id
  let isProgram := match construct with
    | .program _ => true
    | _ => false
  !construct.isDefinition && !isProgram && id ≠ a.tree.programBlock &&
    a.tree.enclosingScope id = .program && !(a.tree.descendants id).any a.isPassBound

end Analysis
end ReactiveLang
