import ReactiveLang.Proofs.Analysis.Refining

/-!
# Source that was understood

A part of the source that was not understood is kept in the tree, as a node of its own or as a part
of a written type. The checks of a node report each of them with a conflict that keeps the program
from running.

* `Annotation.Contains`: a type is written in another one, at any depth.
* `isUnparsable_iff`: the check of an annotation finds what was not understood at any depth.
* `Tree.Understood`: nothing of a node was left unread; `WellFormed.understood`: so it is for all
  nodes of a program that may run.
-/

namespace ReactiveLang

/-! ## Written types -/

namespace Annotation

/-- The types that a written type is put together from. -/
def parts : Annotation → List Annotation
  | list t | set t | stream t => [t]
  | map a b | union a b => [a, b]
  | function inputs output => inputs ++ [output]
  | boolean | text | number _ | nothing | named _ | unparsable => []

/-- The first annotation has the second one in it, at any depth. -/
inductive Contains : Annotation → Annotation → Prop where
  | self (a : Annotation) : Contains a a
  | part {a b inner : Annotation} (here : b ∈ a.parts) (there : Contains b inner) :
      Contains a inner

theorem anyUnparsable_iff (annotations : List Annotation) :
    anyUnparsable annotations = true ↔ ∃ a ∈ annotations, a.isUnparsable = true := by
  induction annotations with
  | nil => simp [anyUnparsable]
  | cons a rest ih => simp [anyUnparsable, ih]

/-- An annotation was not understood, or a part that it is put together from was not. -/
theorem isUnparsable_parts (a : Annotation) :
    a.isUnparsable = true ↔ a = unparsable ∨ ∃ part ∈ a.parts, part.isUnparsable = true := by
  cases a with
  | function inputs output =>
    simp only [isUnparsable, parts, Bool.or_eq_true, anyUnparsable_iff, List.mem_append,
      List.mem_singleton, or_and_right, exists_or, exists_eq_left, reduceCtorEq, false_or]
  | _ => simp [isUnparsable, parts]

theorem sizeOf_part {a part : Annotation} (h : part ∈ a.parts) : sizeOf part < sizeOf a := by
  cases a with
  | function inputs output =>
    rcases List.mem_append.1 h with h | h
    · have := List.sizeOf_lt_of_mem h
      simp only [function.sizeOf_spec]
      omega
    · obtain rfl := List.mem_singleton.1 h
      simp only [function.sizeOf_spec]
      omega
  | _ => simp only [parts, List.mem_cons, List.not_mem_nil, or_false] at h <;> grind

theorem contains_of_isUnparsable (a : Annotation) (h : a.isUnparsable = true) :
    a.Contains unparsable := by
  obtain rfl | ⟨part, hpart, h⟩ := a.isUnparsable_parts.1 h
  · exact .self _
  · have := sizeOf_part hpart
    exact .part hpart (contains_of_isUnparsable part h)
termination_by sizeOf a

/-- The check looks at all parts of an annotation. -/
theorem isUnparsable_iff (a : Annotation) : a.isUnparsable = true ↔ a.Contains unparsable := by
  refine ⟨a.contains_of_isUnparsable, fun h => ?_⟩
  generalize hinner : unparsable = inner at h
  induction h with
  | self => subst hinner; rfl
  | @part a b _ here _ ih => exact a.isUnparsable_parts.2 (.inr ⟨b, here, ih hinner⟩)

end Annotation

/-! ## Nodes -/

/-- The types that are written at the construct: that of a bind, the output of a function, the input
and the output of a conversion, and what is tested for or converted to. -/
def Construct.annotations : Construct → List Annotation
  | binding _ type _ => type.toList
  | functionDef _ _ output _ => output.toList
  | conversionDef input output _ => [input, output]
  | typeTest _ type | convert _ type => [type]
  | _ => []

/-- The source of the node was understood, and so were all parts of the types that are written
there. -/
structure Tree.Understood (t : Tree) (id : NodeId) : Prop where
  construct : ∀ text, t.construct id ≠ .unparsable text
  annotations : ∀ a ∈ (t.construct id).annotations, ¬ a.Contains .unparsable

namespace Analysis

variable {a : Analysis} {id : NodeId}

/-- An annotation with a part that was not understood is found. -/
theorem mem_findings_of_annotation {written : Annotation}
    (hw : written ∈ (a.tree.construct id).annotations) (h : written.isUnparsable = true) :
    Conflict.on .unparsable id ∈ a.given (Inquiry.findings a.tree id) := by
  have hconflict : Conflict.on .unparsable id ∈ annotationConflicts id written := by
    simp [annotationConflicts, h]
  have hfirst : ∀ (type : Option Annotation), written ∈ type.toList →
      Conflict.on .unparsable id ∈ (type.map (annotationConflicts id)).getD [] := by
    intro type ht
    obtain rfl := Option.mem_toList.1 ht
    exact hconflict
  unfold Inquiry.findings
  cases hc : a.tree.construct id with
  | binding name type value =>
    rw [hc] at hw
    dsimp only
    rw [given_bind]
    exact List.mem_append_left _ (hfirst type hw)
  | functionDef name inputs output body =>
    rw [hc] at hw
    exact List.mem_append_left _ (hfirst output hw)
  | conversionDef input output body =>
    rw [hc] at hw
    refine List.mem_append_left _ (List.mem_append.2 ?_)
    rcases List.mem_pair.1 hw with rfl | rfl
    · exact .inl hconflict
    · exact .inr hconflict
  | typeTest expression type =>
    rw [hc] at hw
    obtain rfl := List.mem_singleton.1 hw
    dsimp only
    rw [given_bind]
    exact List.mem_append_left _ hconflict
  | convert expression type =>
    rw [hc] at hw
    obtain rfl := List.mem_singleton.1 hw
    dsimp only
    rw [given_bind]
    exact List.mem_append_left _ hconflict
  | _ => rw [hc] at hw; cases hw

/-- What was not understood at a node is a conflict. -/
theorem understood_of_conflictsOf (h : Conflict.on .unparsable id ∉ a.conflictsOf id) :
    a.tree.Understood id := by
  have hfindings : Conflict.on .unparsable id ∉ a.given (Inquiry.findings a.tree id) := by
    refine fun hmem => h ?_
    unfold conflictsOf
    dsimp only
    split
    · exact List.mem_append_left _ hmem
    · exact hmem
  refine ⟨fun text hc => hfindings ?_, fun written hw hcontains => hfindings ?_⟩
  · unfold Inquiry.findings
    rw [hc]
    exact List.mem_singleton_self _
  · exact mem_findings_of_annotation hw (written.isUnparsable_iff.2 hcontains)

end Analysis

/-- All nodes of a program that may run were understood. -/
theorem Tree.WellFormed.understood {t : Tree} (w : t.WellFormed)
    (h : Conflict.anyFatal (Analysis.ofTree t).conflicts = false) {id : NodeId}
    (hr : t.Reaches id) : t.Understood id := by
  refine Analysis.understood_of_conflictsOf (a := .ofTree t) fun hmem => ?_
  have hconflict : Conflict.on .unparsable id ∈ (Analysis.ofTree t).conflicts :=
    List.mem_flatMap.2 ⟨id, w.mem_reachable hr, hmem⟩
  have hfatal : Conflict.anyFatal (Analysis.ofTree t).conflicts = true :=
    List.any_eq_true.2 ⟨_, hconflict, rfl⟩
  rw [h] at hfatal
  cases hfatal

end ReactiveLang
