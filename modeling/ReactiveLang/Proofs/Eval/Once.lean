import Mathlib.Data.List.Nodup
import ReactiveLang.Proofs.Eval.Heights
import ReactiveLang.Proofs.Syntax.Beneath
import ReactiveLang.Proofs.Syntax.Scopes

/-!
# Each step comes once

The code of a node is made of steps of nodes beneath it, and each node is beneath one child only. So
no step comes twice in the code of a node that has no child twice (`WellFormed.code_nodup`), and no
two nodes end at the same place of some code (`WellFormed.same_end`). A step that leads to the end
of a node's code is the node's finish, or a value of the pass before takes the place of all of it
(`WellFormed.lands_end`).
-/

namespace ReactiveLang.Tree

variable {t : Tree} {node child other : NodeId}

/-! ## Whose steps code has -/

/-- All code of a node is of nodes beneath it. -/
theorem codeWithin_above {depth : Nat} {s : Step} (h : s ∈ t.codeWithin depth node) :
    t.Above node s.node := by
  induction depth generalizing node with
  | zero => cases h
  | succ depth ih =>
    have hown : s.node = node → t.Above node s.node := fun he => he ▸ .refl
    simp only [codeWithin, List.mem_append, List.mem_cons] at h
    rcases h with (rfl | h) | rfl | h
    · exact hown rfl
    · rcases mem_innerCode h with he | ⟨-, child, hc, hs⟩
      · exact hown he
      · exact (ih hs).parent hc
    · exact hown rfl
    · cases h

theorem code_above {s : Step} (h : s ∈ t.code node) : t.Above node s.node := codeWithin_above h

/-! ## No step comes twice -/

/-- The steps of a node that are no child's choose between parts. -/
theorem own_ne {k : Nat} {step : Step} {height : Nat}
    (hp : (t.parts node)[k]? = some (.own step, height)) :
    step ≠ .start node ∧ step ≠ .finish node := by
  have hmem := List.mem_of_getElem? hp
  obtain ⟨children, hparts, -⟩ | ⟨condition, yes, no, hnode⟩ |
    ⟨initial, condition, next, hnode⟩ := t.parts_cases node
  · rw [hparts] at hmem
    obtain ⟨i, hi, heq⟩ := List.mem_mapIdx.1 hmem
    cases heq
  · unfold parts at hmem
    rw [hnode] at hmem
    simp only [List.mem_cons, Prod.mk.injEq, Part.own.injEq, reduceCtorEq, false_and, false_or,
      List.not_mem_nil, or_false] at hmem
    rcases hmem with ⟨rfl, -⟩ | ⟨rfl, -⟩ <;> exact ⟨nofun, nofun⟩
  · unfold parts at hmem
    rw [hnode] at hmem
    simp only [List.mem_cons, Prod.mk.injEq, Part.own.injEq, reduceCtorEq, false_and, false_or,
      List.not_mem_nil, or_false] at hmem
    rcases hmem with ⟨rfl, -⟩ | ⟨rfl, -⟩ | ⟨rfl, -⟩ <;> exact ⟨nofun, nofun⟩

/-- A node that has no child twice has no part twice. -/
theorem parts_nodup (h : (t.children node).Nodup) : ((t.parts node).map Prod.fst).Nodup := by
  have hmap : ∀ children : List NodeId,
      (children.mapIdx fun i child => (Part.child child, i)).map Prod.fst =
        children.map Part.child := fun children =>
    List.ext_getElem (by simp) fun i h1 h2 => by simp
  unfold children at h
  unfold parts
  cases hnode : t.construct node with
  | conditional condition yes no =>
    rw [hnode] at h
    simpa [Construct.children, and_assoc] using h
  | reaction initial condition next =>
    rw [hnode] at h
    simpa [Construct.children, and_assoc] using h
  | functionDef | structureDef | conversionDef => exact List.nodup_nil
  | _ =>
    rw [hnode] at h
    simp only [hmap]
    exact h.map fun _ _ heq => Part.child.inj heq

section
variable (w : t.WellFormed) (hr : t.Reaches node)
include w hr

/-- Different parts of a node's code have no step in common. -/
theorem WellFormed.parts_disjoint {p q : Part × Nat} (hp : p ∈ t.parts node)
    (hq : q ∈ t.parts node) (hne : p.1 ≠ q.1) : (t.codeOf p.1).Disjoint (t.codeOf q.1) := by
  intro s hs hs'
  obtain ⟨i, hi⟩ := List.mem_iff_getElem?.1 hp
  obtain ⟨j, hj⟩ := List.mem_iff_getElem?.1 hq
  obtain ⟨p, height⟩ := p
  obtain ⟨q, height'⟩ := q
  cases p with
  | child c =>
    have hc := mem_children_of_part hi
    cases q with
    | child c' =>
      exact hne (congrArg Part.child
        (w.above_unique hr hc (mem_children_of_part hj) (code_above hs) (code_above hs')))
    | own step =>
      obtain rfl := List.mem_singleton.1 hs'
      exact w.not_above_parent hr hc ((own_moves hj).1 ▸ code_above hs)
  | own step =>
    obtain rfl := List.mem_singleton.1 hs
    cases q with
    | child c =>
      exact w.not_above_parent hr (mem_children_of_part hj) ((own_moves hi).1 ▸ code_above hs')
    | own step => exact hne (congrArg Part.own (List.mem_singleton.1 hs'))

/-- Neither the start of a node nor its finish is in a part of its code. -/
theorem WellFormed.part_ne {p : Part × Nat} (hp : p ∈ t.parts node) {s : Step}
    (hs : s ∈ t.codeOf p.1) : s ≠ .start node ∧ s ≠ .finish node := by
  obtain ⟨i, hi⟩ := List.mem_iff_getElem?.1 hp
  obtain ⟨p, height⟩ := p
  cases p with
  | child c =>
    have hne : s.node ≠ node := fun he =>
      w.not_above_parent hr (mem_children_of_part hi) (he ▸ code_above hs)
    exact ⟨fun he => hne (he ▸ rfl), fun he => hne (he ▸ rfl)⟩
  | own step =>
    obtain rfl := List.mem_singleton.1 hs
    exact own_ne hi

end

/-- No step comes twice in the code of a node, where no node has a child twice. -/
theorem WellFormed.code_nodup (w : t.WellFormed)
    (hd : ∀ node, t.Reaches node → (t.children node).Nodup) (hr : t.Reaches node) :
    (t.code node).Nodup := by
  obtain ⟨n, hn⟩ := hr
  -- by induction on the levels that there may be beneath the node
  generalize hleft : t.nodes.size - n = left
  induction left generalizing node n with
  | zero =>
    have := w.level_lt hn
    omega
  | succ left ih =>
    have hr : t.Reaches node := ⟨n, hn⟩
    have hne : ∀ s ∈ t.codeOfParts (t.parts node), s ≠ .start node ∧ s ≠ .finish node := by
      intro s hs
      obtain ⟨p, hp, hs⟩ := List.mem_flatMap.1 hs
      exact w.part_ne hr hp hs
    have hinner : (t.codeOfParts (t.parts node)).Nodup := by
      refine List.nodup_flatMap.2 ⟨fun p hp => ?_, ?_⟩
      · obtain ⟨i, hi⟩ := List.mem_iff_getElem?.1 hp
        obtain ⟨p, height⟩ := p
        cases p with
        | child c => exact ih (n + 1) (hn.child (mem_children_of_part hi)) (by omega)
        | own step => exact List.nodup_singleton step
      · exact (List.pairwise_map.1 (parts_nodup (hd node hr))).imp_of_mem fun hp hq h =>
          w.parts_disjoint hr hp hq h
    rw [w.code_parts hr, List.cons_append]
    refine List.nodup_cons.2 ⟨fun hm => ?_, List.nodup_append.2 ⟨hinner, List.nodup_singleton _,
      fun a ha b hb he => (hne a ha).2 (he.trans (List.mem_singleton.1 hb))⟩⟩
    rcases List.mem_append.1 hm with hm | hm
    · exact (hne _ hm).1 rfl
    · cases List.mem_singleton.1 hm

/-! ## Where the code of a node ends -/

section
variable (w : t.WellFormed)
include w

theorem WellFormed.code_last (hr : t.Reaches node) :
    (t.code node)[(t.code node).length - 1]? = some (.finish node) := by
  rw [w.code_eq hr]
  simp

/-- Every step goes on. -/
theorem Moves.pos {s : Step} {skip takes leaves : Nat} (h : t.Moves s skip takes leaves) :
    0 < skip := by
  cases h with
  | reuse node => exact w.code_length_pos node
  | _ => omega

/-- The code of two nodes does not end at the same place. -/
theorem WellFormed.same_end {code : List Step} {i j : Nat} (hr : t.Reaches node)
    (hr' : t.Reaches other) (h : t.code node <+: code.drop i) (h' : t.code other <+: code.drop j)
    (he : i + (t.code node).length = j + (t.code other).length) : node = other := by
  have hlast := getElem?_inside h (w.code_last hr)
  have hlast' := getElem?_inside h' (w.code_last hr')
  have hpos := w.code_length_pos node
  have hpos' := w.code_length_pos other
  have hplace : i + ((t.code node).length - 1) = j + ((t.code other).length - 1) := by omega
  rw [hplace, hlast'] at hlast
  exact (Step.finish.inj (Option.some.inj hlast)).symm

/-- A start that leads to the end of its node's code takes no value and leaves one. -/
theorem WellFormed.start_moves (hr : t.Reaches node) {skip takes leaves : Nat}
    (h : t.Moves (.start node) skip takes leaves) (he : skip = (t.code node).length) :
    takes = 0 ∧ leaves = 1 := by
  have hlength := w.length_code hr
  cases h with
  | start =>
    unfold offset at hlength
    omega
  | reuse => exact ⟨rfl, rfl⟩

/-- A step that leads to the end of a node's code is the node's finish, or starts the node where
there is a value for it. -/
theorem WellFormed.lands_end {i skip : Nat} {s : Step} (hr : t.Reaches node)
    (hs : t.Reaches s.node) (h : t.Lands (t.code node) i s skip)
    (he : i + skip = (t.code node).length) : s = .finish node ∨ s = .start node ∧ i = 0 := by
  obtain ⟨base, j, rfl, hcode, hland⟩ := h
  have hle := hcode.length_le
  rw [List.length_drop] at hle
  have hpos := w.code_length_pos s.node
  rcases hland with hlt | ⟨hend, hlast⟩
  · omega
  · have hnode :=
      w.same_end hs hr hcode (List.prefix_refl _ : _ <+: (t.code node).drop 0) (by omega)
    rw [hnode] at hle hlast
    obtain rfl : base = 0 := by omega
    rwa [Nat.zero_add]

end

end ReactiveLang.Tree
