import ReactiveLang.Eval.Program
import ReactiveLang.Proofs.Syntax.Finished

/-!
# How code is laid out

Code that is prepared for a tree is the code of the tree (`Code.ofNode_ofTree`,
`Code.ofCall_ofTree`). In a finished tree the code of a node is its start, the code of its
children, and its finish (`WellFormed.code_eq`): no child is left out for being too deep.
-/

namespace ReactiveLang

namespace Code

/-- What is prepared at a place is the code of the node there. -/
def IsPrepared (t : Tree) (prepared : Array (Option (Array Step))) : Prop :=
  ∀ (i : Nat) (steps : Array Step), prepared[i]? = some (some steps) → steps = (t.code ⟨i⟩).toArray

theorem isPrepared_foldl (t : Tree) (ids : List NodeId) {prepared : Array (Option (Array Step))}
    (h : IsPrepared t prepared) :
    IsPrepared t (ids.foldl
      (fun prepared id => prepared.setIfInBounds id.index (some (t.code id).toArray)) prepared) := by
  induction ids generalizing prepared with
  | nil => exact h
  | cons id rest ih =>
    refine ih fun i steps hi => ?_
    rw [Array.getElem?_setIfInBounds] at hi
    split at hi
    · rename_i heq
      split at hi
      · cases hi
        rw [← heq]
      · cases hi
    · exact h i steps hi

theorem isPrepared_ofTree (t : Tree) : IsPrepared t (ofTree t).prepared :=
  isPrepared_foldl t _ fun i steps hi => by simp [Array.getElem?_replicate] at hi

/-- The code of a node is that of the tree. -/
theorem ofNode_ofTree (t : Tree) (id : NodeId) : (ofTree t).ofNode id = (t.code id).toArray := by
  unfold ofNode
  split
  · rename_i steps hs
    refine isPrepared_ofTree t id.index steps ?_
    cases h : (ofTree t).prepared[id.index]? with
    | none => simp [h] at hs
    | some o => simpa [h] using hs
  · rfl

theorem length_ofTree (t : Tree) (id : NodeId) : (ofTree t).length id = (t.code id).length := by
  simp [length, ofNode_ofTree]

theorem join_eq (parts : List (Array Step)) :
    join parts = (parts.flatMap Array.toList).toArray := by
  induction parts with
  | nil => rfl
  | cons steps rest ih =>
    cases rest with
    | nil => simp [join]
    | cons next rest => simp [join, ih]

/-- The code of a call is that of the tree. -/
theorem ofCall_ofTree (t : Tree) (definition : NodeId) (provided : Nat) :
    (ofTree t).ofCall definition provided = (t.callCode definition provided).toArray := by
  have hn : (ofTree t).ofNode = fun id => (t.code id).toArray := funext (ofNode_ofTree t)
  simp only [ofCall, join_eq, hn, List.flatMap_map]
  rfl

end Code

namespace Tree

variable {t : Tree}

/-- The code between start and finish is made of the code of the children. -/
theorem innerCode_congr {code code' : NodeId → List Step} {id : NodeId}
    (h : ∀ c ∈ t.children id, code c = code' c) : t.innerCode code id = t.innerCode code' id := by
  unfold innerCode children at *
  cases hc : t.construct id with
  | conditional condition yes no =>
    rw [hc] at h
    simp only [h condition (by simp [Construct.children]), h yes (by simp [Construct.children]),
      h no (by simp [Construct.children])]
  | reaction initial condition next =>
    rw [hc] at h
    simp only [h initial (by simp [Construct.children]), h condition (by simp [Construct.children]),
      h next (by simp [Construct.children])]
  | functionDef | structureDef | conversionDef => rfl
  | _ =>
    rw [hc] at h
    exact congrArg List.flatten (List.map_congr_left h)

/-- Code does not change with the depth, once that is enough for the levels that are left. -/
theorem WellFormed.codeWithin_eq (w : t.WellFormed) {left n m k : Nat} {id : NodeId}
    (hl : t.Level k id) (hleft : t.nodes.size ≤ left + k) (hn : left ≤ n) (hm : left ≤ m) :
    t.codeWithin n id = t.codeWithin m id := by
  induction left generalizing n m k id with
  | zero =>
    have := w.level_lt hl
    omega
  | succ left ih =>
    obtain ⟨n, rfl⟩ := Nat.exists_eq_add_of_le' (Nat.le_trans (Nat.succ_le_succ left.zero_le) hn)
    obtain ⟨m, rfl⟩ := Nat.exists_eq_add_of_le' (Nat.le_trans (Nat.succ_le_succ left.zero_le) hm)
    have hinner : t.innerCode (t.codeWithin n) id = t.innerCode (t.codeWithin m) id :=
      innerCode_congr fun c hc => ih (hl.child hc) (by omega) (by omega) (by omega)
    rw [codeWithin, codeWithin, hinner]

/-- The code of a node in terms of the code of its children. -/
theorem WellFormed.code_eq (w : t.WellFormed) {id : NodeId} (h : t.Reaches id) :
    t.code id = .start id :: t.innerCode t.code id ++ [.finish id] := by
  obtain ⟨k, hk⟩ := h
  have hpos := w.level_lt hk
  have hsize : t.nodes.size = (t.nodes.size - 1) + 1 := by omega
  have hinner : t.innerCode (t.codeWithin (t.nodes.size - 1)) id = t.innerCode t.code id :=
    innerCode_congr fun c hc =>
      w.codeWithin_eq (hk.child hc) (show _ ≤ t.nodes.size - (k + 1) + (k + 1) by omega) (by omega)
        (by omega)
  rw [← hinner]
  exact congrArg (fun depth => t.codeWithin depth id) hsize

theorem WellFormed.code_ne_nil (w : t.WellFormed) {id : NodeId} (h : t.Reaches id) :
    t.code id ≠ [] := by
  rw [w.code_eq h]
  simp

/-- All code begins with the start of its node. -/
theorem WellFormed.code_head (w : t.WellFormed) (id : NodeId) :
    (t.code id)[0]? = some (.start id) := by
  have hpos : 0 < t.nodes.size := Nat.zero_lt_of_lt (w.level_lt .root)
  obtain ⟨depth, hd⟩ := Nat.exists_eq_succ_of_ne_zero (Nat.ne_of_gt hpos)
  rw [code, hd, codeWithin]
  rfl

/-- No code is empty. -/
theorem WellFormed.code_length_pos (w : t.WellFormed) (id : NodeId) : 0 < (t.code id).length :=
  (List.getElem?_eq_some_iff.1 (w.code_head id)).1

end Tree
end ReactiveLang
