import Mathlib.Data.List.Nodup
import ReactiveLang.Proofs.Syntax.Finished

/-!
# What is beneath a node

The nodes beneath a node are its children and what is beneath those. They are listed down to a
depth that is the number of nodes, and none that is in the store is missed, also where children lead
around in a circle: down to each depth either all are listed, or one more is than down to the depth
before.

* `Tree.Above`: a node is above another one, or is that node.
* `WellFormed.above_unique`: in a tree no node is beneath two children of a node.
* `Tree.mem_descendants_iff`: the list has what is beneath the node.
-/

namespace ReactiveLang.Tree

variable {t : Tree} {node child other : NodeId}

/-- The first node is the second one, or above it. -/
inductive Above (t : Tree) (top : NodeId) : NodeId → Prop where
  | refl : Above t top top
  | child {parent child : NodeId} :
      Above t top parent → child ∈ t.children parent → Above t top child

theorem Above.parent (hc : child ∈ t.children node) (h : t.Above child other) :
    t.Above node other := by
  induction h with
  | refl => exact .child .refl hc
  | child _ hm ih => exact ih.child hm

theorem Above.level {n : Nat} (hn : t.Level n node) (h : t.Above node other) :
    ∃ m, n ≤ m ∧ t.Level m other := by
  induction h with
  | refl => exact ⟨n, Nat.le_refl n, hn⟩
  | child _ hm ih =>
    obtain ⟨m, hle, hl⟩ := ih
    exact ⟨m + 1, Nat.le_succ_of_le hle, hl.child hm⟩

theorem Above.reaches (hr : t.Reaches node) (h : t.Above node other) : t.Reaches other := by
  obtain ⟨n, hn⟩ := hr
  obtain ⟨m, -, hm⟩ := h.level hn
  exact ⟨m, hm⟩

theorem Above.trans {top : NodeId} (h : t.Above top node) (h' : t.Above node other) :
    t.Above top other := by
  induction h' with
  | refl => exact h
  | child _ hc ih => exact ih.child hc

section
variable (w : t.WellFormed) (hr : t.Reaches node) (hc : child ∈ t.children node)
include w hr hc

theorem WellFormed.not_above_parent : ¬ t.Above child node := by
  intro h
  obtain ⟨n, hn⟩ := hr
  obtain ⟨m, hle, hm⟩ := h.level (hn.child hc)
  have := w.level_unique hn hm
  omega

/-- No node is beneath two children of a node. -/
theorem WellFormed.above_unique {child' : NodeId} (hc' : child' ∈ t.children node)
    (h : t.Above child other) (h' : t.Above child' other) : child = child' := by
  have hparent : ∀ {top c p : NodeId}, top ∈ t.children node → c ∈ t.children node →
      t.Above top p → c ∈ t.children p → p = node := fun htop hc ha hm =>
    Option.some.inj ((w.parent_child _ _ (ha.reaches (hr.child htop)) hm).symm.trans
      (w.parent_child _ _ hr hc))
  induction h with
  | refl =>
    cases h' with
    | refl => rfl
    | child ha hm =>
      exact absurd (hparent hc' hc ha hm ▸ ha) (w.not_above_parent hr hc')
  | child ha hm ih =>
    cases h' with
    | refl => exact absurd (hparent hc hc' ha hm ▸ ha) (w.not_above_parent hr hc)
    | child ha' hm' =>
      have h1 := w.parent_child _ _ (ha.reaches (hr.child hc)) hm
      have h2 := w.parent_child _ _ (ha'.reaches (hr.child hc')) hm'
      exact ih (Option.some.inj (h2.symm.trans h1) ▸ ha')

end

theorem above_of_mem_descendantsTo {depth : Nat} (h : other ∈ t.descendantsTo depth node) :
    t.Above node other := by
  induction depth generalizing node with
  | zero => cases h
  | succ depth ih =>
    rcases List.mem_cons.1 h with rfl | h
    · exact .refl
    · obtain ⟨child, hc, h⟩ := List.mem_flatMap.1 h
      exact (ih h).parent hc

theorem mem_descendantsTo_self (depth : Nat) : node ∈ t.descendantsTo (depth + 1) node :=
  List.mem_cons_self

theorem mem_descendantsTo_child {depth : Nat} (h : other ∈ t.descendantsTo depth node)
    (hc : child ∈ t.children other) : child ∈ t.descendantsTo (depth + 1) node := by
  induction depth generalizing node with
  | zero => cases h
  | succ depth ih =>
    rcases List.mem_cons.1 h with rfl | h
    · exact List.mem_cons_of_mem _ (List.mem_flatMap.2 ⟨child, hc, mem_descendantsTo_self depth⟩)
    · obtain ⟨next, hn, h⟩ := List.mem_flatMap.1 h
      exact List.mem_cons_of_mem _ (List.mem_flatMap.2 ⟨next, hn, ih h⟩)

theorem descendantsTo_subset_succ (depth : Nat) :
    t.descendantsTo depth node ⊆ t.descendantsTo (depth + 1) node := by
  induction depth generalizing node with
  | zero => exact fun _ h => nomatch h
  | succ depth ih =>
    intro other h
    rcases List.mem_cons.1 h with rfl | h
    · exact mem_descendantsTo_self _
    · obtain ⟨child, hc, h⟩ := List.mem_flatMap.1 h
      exact List.mem_cons_of_mem _ (List.mem_flatMap.2 ⟨child, hc, ih h⟩)

theorem index_lt_of_mem_children (h : child ∈ t.children node) : node.index < t.nodes.size := by
  refine Nat.lt_of_not_le fun hge => ?_
  rw [children, construct_eq_nothing hge] at h
  cases h

/-- Down to a depth the nodes of the store that are beneath a node are all listed, or as many as the
depth is. -/
theorem descendantsTo_all_or_more (t : Tree) (node : NodeId) (depth : Nat) :
    (∀ other, t.Above node other → other.index < t.nodes.size →
      other ∈ t.descendantsTo depth node) ∨
      ∃ ids : List NodeId, ids.Nodup ∧ ids.length = depth ∧
        ∀ id ∈ ids, id.index < t.nodes.size ∧ id ∈ t.descendantsTo depth node := by
  induction depth with
  | zero => exact .inr ⟨[], .nil, rfl, nofun⟩
  | succ depth ih =>
    have hsub : t.descendantsTo depth node ⊆ t.descendantsTo (depth + 1) node :=
      descendantsTo_subset_succ depth
    rcases ih with hall | ⟨ids, hnodup, hlen, hids⟩
    · exact .inl fun other ha hlt => hsub (hall other ha hlt)
    · by_cases hnew : ∃ id : NodeId, id.index < t.nodes.size ∧
          id ∈ t.descendantsTo (depth + 1) node ∧ id ∉ ids
      · obtain ⟨id, hlt, hmem, hnot⟩ := hnew
        refine .inr ⟨id :: ids, List.nodup_cons.2 ⟨hnot, hnodup⟩, by rw [List.length_cons, hlen],
          List.forall_mem_cons.2 ⟨⟨hlt, hmem⟩, fun other ho => ?_⟩⟩
        exact ⟨(hids other ho).1, hsub (hids other ho).2⟩
      · -- nothing new came with the last level, so the levels before it have all
        refine .inl fun other ha _ => ?_
        induction ha with
        | refl => exact mem_descendantsTo_self depth
        | @child parent child _ hc ih =>
          have hlt : parent.index < t.nodes.size := index_lt_of_mem_children hc
          have hknown : parent ∈ ids := by_contra fun hnot => hnew ⟨parent, hlt, ih hlt, hnot⟩
          exact mem_descendantsTo_child (hids parent hknown).2 hc

/-- The descendants are what is beneath the node, as far as it is in the store. -/
theorem mem_descendants_iff (h : other.index < t.nodes.size) :
    other ∈ t.descendants node ↔ t.Above node other := by
  refine ⟨above_of_mem_descendantsTo, fun ha => ?_⟩
  rcases t.descendantsTo_all_or_more node t.nodes.size with hall | ⟨ids, hnodup, hlen, hids⟩
  · exact hall other ha h
  · -- there are no more nodes than these
    have hin : other ∈ ids := by
      by_contra hnot
      have hmore := length_le_of_nodup (List.nodup_cons.2 ⟨hnot, hnodup⟩)
        (List.forall_mem_cons.2 ⟨h, fun id hid => (hids id hid).1⟩)
      rw [List.length_cons, hlen] at hmore
      omega
    exact (hids other hin).2

end ReactiveLang.Tree
