import ReactiveLang.Proofs.Analysis.Refining

/-!
# Inputs that a call leaves out

A call gives the first inputs of a definition. Those that it does not give and that have no default
are missing (`Tree.missingInputs`), and a conflict at the call speaks of each of them, in the order
of their declaration (`missing_inputConflicts`, `conflictsOf_call`). Arguments that are too many,
or of the wrong type, have conflicts of other kinds.
-/

namespace ReactiveLang

/-- The inputs without a default, where only the first `count` are given. -/
def Tree.missingInputs (t : Tree) (definition : NodeId) (count : Nat) : List NodeId :=
  ((t.inputsOf definition).drop count).filter fun input => !t.hasDefault input

namespace Conflict

variable {kind : ConflictKind} {c : Conflict}

@[simp] theorem ofKind_nil : ofKind kind [] = [] := rfl

@[simp] theorem ofKind_append (l l' : List Conflict) :
    ofKind kind (l ++ l') = ofKind kind l ++ ofKind kind l' := List.filter_append ..

@[simp] theorem ofKind_singleton : ofKind kind [c] = if c.kind = kind then [c] else [] := by
  simp [ofKind, List.filter_cons]

@[simp] theorem kind_on (kind : ConflictKind) (node : NodeId) : (on kind node).kind = kind := rfl

@[simp] theorem kind_withTypes (c : Conflict) (types : List Ty) : (c.withTypes types).kind = c.kind :=
  rfl

@[simp] theorem kind_explain (input : DeclaredInput) (c : Conflict) :
    (input.explain c).kind = c.kind := by
  unfold DeclaredInput.explain
  split <;> rfl

end Conflict

namespace Analysis

open Conflict (ofKind)
open Inquiry (argumentConflicts declaredInput)

variable (a : Analysis)

/-- What is said at a call of an input that it leaves out. -/
def missingInput (call input : NodeId) : Conflict :=
  ((Conflict.on .missingInput call).relatedTo input).withTypes [a.declaredType input]

theorem given_pure {α : Type} (value : α) : a.given (pure value) = value := rfl

theorem given_mapM {α β : Type} (ask : α → Inquiry β) (items : List α) :
    a.given (items.mapM ask) = items.map fun item => a.given (ask item) := by
  suffices hloop : ∀ answers : List β, a.given (List.mapM.loop ask items answers) =
      answers.reverse ++ items.map fun item => a.given (ask item) from hloop []
  induction items with
  | nil => exact fun answers => (List.append_nil _).symm
  | cons item rest ih =>
    intro answers
    rw [List.mapM.loop, given_bind, ih]
    simp

/-- Of the inputs that a callee declares, those beyond the arguments are missing unless they are
optional. -/
theorem missing_argumentConflicts (call : NodeId) (inputs : List DeclaredInput)
    (arguments : List NodeId) :
    ofKind .missingInput (a.given (argumentConflicts call inputs arguments)) =
      ((inputs.drop arguments.length).filter fun input => !input.optional).map fun input =>
        (input.explain (.on .missingInput call)).withTypes [input.type] := by
  induction inputs generalizing arguments with
  | nil =>
    cases arguments with
    | nil => rfl
    | cons extra rest => rfl
  | cons input inputs ih =>
    cases arguments with
    | nil =>
      rw [argumentConflicts, given_bind, given_pure, Conflict.ofKind_append, ih]
      cases hoptional : input.optional <;> simp [hoptional]
    | cons argument rest =>
      rw [argumentConflicts, given_bind, given_bind, given_pure, Conflict.ofKind_append, ih]
      split <;> simp

theorem given_declaredInput (input : NodeId) : a.given (declaredInput a.tree input) =
    ⟨a.declaredType input, a.tree.hasDefault input, some input⟩ := by
  rw [declaredInput, given_bind]
  rfl

/-- The conflicts of a call speak of the inputs that are missing. -/
theorem missing_inputConflicts (call definition : NodeId) (arguments : List NodeId) :
    ofKind .missingInput
        (a.given (Inquiry.inputConflicts a.tree call definition arguments)) =
      (a.tree.missingInputs definition arguments.length).map (a.missingInput call) := by
  have hdeclared : ∀ inputs : List NodeId,
      (((inputs.map fun input => a.given (declaredInput a.tree input)).drop arguments.length).filter
          fun input => !input.optional) =
        ((inputs.drop arguments.length).filter fun input => !a.tree.hasDefault input).map
          fun input => a.given (declaredInput a.tree input) := by
    intro inputs
    rw [← List.map_drop, List.filter_map]
    simp only [Function.comp_def, given_declaredInput]
  rw [Inquiry.inputConflicts, given_bind, missing_argumentConflicts, given_mapM, hdeclared,
    List.map_map, Tree.missingInputs]
  refine List.map_congr_left fun input _ => ?_
  rw [Function.comp_apply, given_declaredInput]
  rfl

/-- What is wrong with a call whose callee is clear is what is wrong with its arguments. -/
theorem conflictsOf_call {call function definition : NodeId} {arguments : List NodeId}
    (hc : a.tree.construct call = .call function arguments)
    (hcallee : a.callee call = some (.function definition) ∨
      a.callee call = some (.structureDef definition)) :
    a.conflictsOf call = a.given (Inquiry.inputConflicts a.tree call definition arguments) := by
  have hread : a.tree.mustBeRead call = false := by
    unfold Tree.mustBeRead Tree.isBinding
    rw [hc]
    rfl
  unfold conflictsOf Inquiry.findings
  rw [hread, hc]
  show a.given (Inquiry.callConflicts a.tree call function arguments) = _
  unfold callee at hcallee
  rw [Inquiry.callConflicts, given_bind]
  obtain hcallee | hcallee := hcallee <;> rw [hcallee]

end Analysis
end ReactiveLang
