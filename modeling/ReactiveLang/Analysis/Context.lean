import ReactiveLang.Analysis.Conflict
import ReactiveLang.Analysis.Inquiry

/-!
# What a context remembers

A context belongs to one tree. It works out an answer when it is asked for it and keeps it for the
next time, so what it holds depends on what it was asked before.
-/

namespace ReactiveLang

/-- Answers that are known for some nodes. -/
structure Notes (α : Type) where
  entries : Array (Option α)

namespace Notes

variable {α : Type}

/-- Room for the nodes of a store, with nothing noted yet. -/
def blank (size : Nat) : Notes α := ⟨Array.replicate size none⟩

def find? (notes : Notes α) (id : NodeId) : Option α := notes.entries[id.index]?.join

def record (notes : Notes α) (id : NodeId) (value : α) : Notes α :=
  ⟨notes.entries.setIfInBounds id.index (some value)⟩

@[simp] theorem find?_blank {size : Nat} {id : NodeId} :
    (blank size : Notes α).find? id = none := by
  simp only [find?, blank, Array.getElem?_replicate]
  split <;> rfl

/-- What is found after a recording was recorded just now or could be found before. -/
theorem find?_record {notes : Notes α} {id other : NodeId} {value found : α}
    (h : (notes.record id value).find? other = some found) :
    (other = id ∧ found = value) ∨ notes.find? other = some found := by
  simp only [find?, record, Array.getElem?_setIfInBounds] at h
  split at h
  · rename_i same
    split at h
    · exact .inl ⟨(congrArg NodeId.mk same).symm, by simpa using h.symm⟩
    · simp at h
  · exact .inr h

end Notes

/-- Mirrors quill-analysis/context:56-69. -/
structure Context where
  /-- Types that were determined without meeting a cycle. -/
  types : Notes Ty
  resolutions : Notes (Option Definition)
  /-- Each definition that is read with a node that reads it, once they were collected. -/
  references : Option (List (NodeId × NodeId))
  dependencies : Notes (List NodeId)
  conflicts : Notes (List Conflict)
  /-- How many cycles were cut. -/
  cycles : Nat

/-- A computation over a context. It fails when it runs out of fuel, and never otherwise. -/
abbrev Consulting := StateT Context Option

namespace Context

/-- A context of a tree of that many nodes that was asked nothing yet. -/
def fresh (size : Nat) : Context :=
  ⟨.blank size, .blank size, none, .blank size, .blank size, 0⟩

def countCycle (c : Context) : Context := { c with cycles := c.cycles + 1 }

def noteType (c : Context) (id : NodeId) (type : Ty) : Context :=
  { c with types := c.types.record id type }

def noteResolution (c : Context) (id : NodeId) (found : Option Definition) : Context :=
  { c with resolutions := c.resolutions.record id found }

def noteReferences (c : Context) (readings : List (NodeId × NodeId)) : Context :=
  { c with references := some readings }

def noteDependencies (c : Context) (id : NodeId) (found : List NodeId) : Context :=
  { c with dependencies := c.dependencies.record id found }

def noteConflicts (c : Context) (id : NodeId) (found : List Conflict) : Context :=
  { c with conflicts := c.conflicts.record id found }

/-- Takes the answer that is known, or works it out and keeps it. Mirrors
quill-analysis/context:537-547, 629-637, the tables that are filled on demand. -/
def recalling {α : Type} (known : Context → Option α) (keep : Context → α → Context)
    (work : Consulting α) : Consulting α := do
  match known (← get) with
  | some value => pure value
  | none =>
    let value ← work
    modify fun c => keep c value
    pure value

/-- What a reference stands for. Mirrors quill-analysis/context:365-376 (`resolve`). -/
def resolve (t : Tree) (reference : NodeId) : Consulting (Option Definition) :=
  recalling (fun c => c.resolutions.find? reference) (fun c found => c.noteResolution reference found)
    (pure (t.resolve reference))

end Context
end ReactiveLang
