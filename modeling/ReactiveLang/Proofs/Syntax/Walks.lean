import Mathlib.Data.List.Nodup
import ReactiveLang.Proofs.Syntax.Beneath

/-!
# Walking down and up

`Tree.descendants` and `Tree.ancestors` are bounded by the number of nodes. In a tree the bound is
never met: both give what the walks without one give, which are `Tree.Visits`, with the nodes that
wait on a stack, and `Tree.Climbs`, from parent to parent.

* `WellFormed.from_below`: what holds of a node if it holds of its children holds of all nodes.
* `WellFormed.visits_descendants`, `WellFormed.nodup_descendants`: the walk down comes to an end and
  lists no node twice, each before its children and all beneath a child before the next child.
* `WellFormed.climbs_ancestors`, `WellFormed.mem_ancestors_iff`: the walk up ends at the root and
  comes by what the node is beneath.
* `walks_agree`: a node is met on the way up from another one just when that is met on the way down.
-/

namespace ReactiveLang.Tree

variable {t : Tree} {id child node top : NodeId}

/-- From a stack, the node on top is listed and its children take its place, until there is no node
left. -/
inductive Visits (t : Tree) : List NodeId → List NodeId → Prop where
  | done : Visits t [] []
  | visit {id : NodeId} {stack visited : List NodeId} : id.index < t.nodes.size →
      Visits t (t.children id ++ stack) visited → Visits t (id :: stack) (id :: visited)

/-- The parent is listed, then its parent, until there is none. -/
inductive Climbs (t : Tree) : NodeId → List NodeId → Prop where
  | stop {id : NodeId} : t.parent? id = none → Climbs t id []
  | up {id parent : NodeId} {path : List NodeId} : t.parent? id = some parent →
      Climbs t parent path → Climbs t id (parent :: path)

theorem Visits.unique {stack visited visited' : List NodeId} (h : t.Visits stack visited)
    (h' : t.Visits stack visited') : visited = visited' := by
  induction h generalizing visited' with
  | done =>
    cases h'
    rfl
  | visit _ _ ih =>
    cases h' with
    | visit _ h' => exact congrArg _ (ih h')

theorem Climbs.unique {path path' : List NodeId} (h : t.Climbs id path) (h' : t.Climbs id path') :
    path = path' := by
  induction h generalizing path' with
  | stop hnone =>
    cases h' with
    | stop _ => rfl
    | up hsome _ => rw [hnone] at hsome; cases hsome
  | up hsome _ ih =>
    cases h' with
    | stop hnone => rw [hnone] at hsome; cases hsome
    | up hsome' h' =>
      rw [hsome] at hsome'
      cases hsome'
      exact congrArg _ (ih h')

/-- On the way up each node is the parent of the one before it. -/
theorem Climbs.isChain {path : List NodeId} (h : t.Climbs id path) :
    List.IsChain (fun child parent => t.parent? child = some parent) (id :: path) := by
  induction h with
  | stop _ => exact .singleton _
  | up hsome _ ih => exact .cons_cons hsome ih

section
variable (w : t.WellFormed)
include w

/-! ## Down -/

/-- What a node has if its children have it all nodes have: none is deeper than there are nodes. -/
@[elab_as_elim]
theorem WellFormed.from_below {motive : NodeId → Prop}
    (step : ∀ id, t.Reaches id → (∀ child ∈ t.children id, motive child) → motive id)
    (h : t.Reaches id) : motive id := by
  obtain ⟨n, hn⟩ := h
  have hdepth : ∀ k n id, t.Level n id → t.nodes.size ≤ n + k → motive id := by
    intro k
    induction k with
    | zero => exact fun n id hn hle => absurd (w.level_lt hn) (Nat.not_lt_of_le hle)
    | succ k ih =>
      exact fun n id hn hle => step id ⟨n, hn⟩ fun child hc =>
        ih (n + 1) child (hn.child hc) (by omega)
  exact hdepth t.nodes.size n id hn (Nat.le_add_left ..)

/-- Down to a depth at which there are no more nodes the list does not depend on the depth. -/
theorem WellFormed.descendantsTo_eq {n k l : Nat} (h : t.Level n id) (hk : t.nodes.size ≤ n + k)
    (hl : t.nodes.size ≤ n + l) : t.descendantsTo k id = t.descendantsTo l id := by
  have hlt := w.level_lt h
  induction k generalizing n id l with
  | zero => omega
  | succ k ih =>
    cases l with
    | zero => omega
    | succ l =>
      rw [descendantsTo, descendantsTo]
      exact congrArg _ (List.flatMap_congr fun child hc =>
        ih (h.child hc) (by omega) (by omega) (w.level_lt (h.child hc)))

/-- The node comes first, then all beneath its first child, then all beneath the next. -/
theorem WellFormed.descendants_eq (h : t.Reaches id) :
    t.descendants id = id :: (t.children id).flatMap t.descendants := by
  obtain ⟨n, hn⟩ := h
  obtain ⟨k, hk⟩ := Nat.exists_eq_add_of_lt (w.level_lt hn)
  have hsize : t.nodes.size = n + k + 1 := hk
  rw [descendants, hsize, descendantsTo]
  refine congrArg _ (List.flatMap_congr fun child hc => ?_)
  exact w.descendantsTo_eq (hn.child hc) (by omega) (by omega)

theorem WellFormed.mem_descendants (h : t.Reaches top) :
    node ∈ t.descendants top ↔ t.Above top node :=
  ⟨above_of_mem_descendantsTo, fun ha => (mem_descendants_iff (w.index_lt (ha.reaches h))).2 ha⟩

/-- The walk down from a stack goes on as from the rest of it, once all beneath its top is there. -/
theorem WellFormed.visits_descendants (h : t.Reaches id) : ∀ stack visited,
    t.Visits stack visited → t.Visits (id :: stack) (t.descendants id ++ visited) := by
  refine w.from_below (fun id hr ih stack visited hv => ?_) h
  rw [w.descendants_eq hr, List.cons_append]
  refine .visit (w.index_lt hr) ?_
  generalize t.children id = ids at ih ⊢
  induction ids with
  | nil => exact hv
  | cons child rest ihrest =>
    rw [List.flatMap_cons, List.append_assoc]
    exact ih child List.mem_cons_self _ _
      (ihrest fun child hc => ih child (List.mem_cons_of_mem _ hc))

theorem WellFormed.nodup_descendants (hnodup : ∀ id, t.Reaches id → (t.children id).Nodup)
    (h : t.Reaches id) : (t.descendants id).Nodup := by
  refine w.from_below (fun id hr ih => ?_) h
  rw [w.descendants_eq hr, List.nodup_cons, List.nodup_flatMap]
  refine ⟨fun hmem => ?_, ih, (hnodup id hr).imp_of_mem fun {a b} ha hb hne other hoa hob => ?_⟩
  · obtain ⟨child, hc, hmem⟩ := List.mem_flatMap.1 hmem
    exact w.not_above_parent hr hc (above_of_mem_descendantsTo hmem)
  · exact hne (w.above_unique hr ha hb (above_of_mem_descendantsTo hoa)
      (above_of_mem_descendantsTo hob))

/-! ## Up -/

/-- No way up is longer than the level of the node. -/
theorem WellFormed.ancestorsFrom_eq {n : Nat} (h : t.Level n id) {k l : Nat} (hk : n ≤ k)
    (hl : n ≤ l) : t.ancestorsFrom k id = t.ancestorsFrom l id := by
  induction h generalizing k l with
  | root =>
    have hnil : ∀ k, t.ancestorsFrom k t.root = [] := by
      intro k
      cases k with
      | zero => rfl
      | succ k => rw [ancestorsFrom, w.parent_root]
    rw [hnil, hnil]
  | @child n parent id hp hc ih =>
    obtain ⟨k, rfl⟩ := Nat.exists_eq_add_of_le' (Nat.le_trans (Nat.succ_le_succ n.zero_le) hk)
    obtain ⟨l, rfl⟩ := Nat.exists_eq_add_of_le' (Nat.le_trans (Nat.succ_le_succ n.zero_le) hl)
    rw [ancestorsFrom, ancestorsFrom, w.parent_child _ _ ⟨n, hp⟩ hc]
    exact congrArg _ (ih (Nat.le_of_succ_le_succ hk) (Nat.le_of_succ_le_succ hl))

theorem WellFormed.ancestors_child (h : t.Reaches id) (hc : child ∈ t.children id) :
    t.ancestors child = id :: t.ancestors id := by
  obtain ⟨n, hn⟩ := h
  have hlt := w.level_lt (hn.child hc)
  obtain ⟨k, hk⟩ := Nat.exists_eq_add_of_le' (Nat.succ_le_of_lt (Nat.zero_lt_of_lt hlt))
  rw [ancestors, ancestors, hk, ancestorsFrom, w.parent_child _ _ ⟨n, hn⟩ hc]
  exact congrArg _ (w.ancestorsFrom_eq hn (by omega) (by omega))

theorem WellFormed.ancestors_root : t.ancestors t.root = [] := by
  rw [ancestors]
  cases t.nodes.size with
  | zero => rfl
  | succ k => rw [ancestorsFrom, w.parent_root]

theorem WellFormed.climbs_ancestors (h : t.Reaches id) : t.Climbs id (t.ancestors id) := by
  obtain ⟨n, hn⟩ := h
  induction hn with
  | root =>
    rw [w.ancestors_root]
    exact .stop w.parent_root
  | child hp hc ih =>
    rw [w.ancestors_child ⟨_, hp⟩ hc]
    exact .up (w.parent_child _ _ ⟨_, hp⟩ hc) ih

theorem WellFormed.getLast?_ancestors (h : t.Reaches id) :
    (id :: t.ancestors id).getLast? = some t.root := by
  obtain ⟨n, hn⟩ := h
  induction hn with
  | root =>
    rw [w.ancestors_root]
    rfl
  | child hp hc ih =>
    rw [w.ancestors_child ⟨_, hp⟩ hc, List.getLast?_cons_cons]
    exact ih

/-- Nothing is above the root. -/
theorem WellFormed.above_root (htop : t.Reaches top) (h : t.Above top t.root) : top = t.root := by
  cases h with
  | refl => rfl
  | child ha hc =>
    have hparent := w.parent_child _ _ (ha.reaches htop) hc
    rw [w.parent_root] at hparent
    cases hparent

/-- What is above a child, and not the child, is above its parent. -/
theorem WellFormed.above_child (htop : t.Reaches top) (h : t.Reaches id)
    (hc : child ∈ t.children id) : t.Above top child ↔ top = child ∨ t.Above top id := by
  refine ⟨fun ha => ?_, ?_⟩
  · cases ha with
    | refl => exact .inl rfl
    | child ha hm =>
      have hparent := w.parent_child _ _ (ha.reaches htop) hm
      rw [w.parent_child _ _ h hc] at hparent
      cases hparent
      exact .inr ha
  · rintro (rfl | ha)
    · exact .refl
    · exact ha.child hc

/-- On the way up are the other nodes that the node is beneath. -/
theorem WellFormed.mem_ancestors_iff (htop : t.Reaches top) (h : t.Reaches node) :
    top ∈ t.ancestors node ↔ node ≠ top ∧ t.Above top node := by
  obtain ⟨n, hn⟩ := h
  induction hn with
  | root =>
    rw [w.ancestors_root]
    exact ⟨nofun, fun h => absurd (w.above_root htop h.2).symm h.1⟩
  | @child n parent child hp hc ih =>
    rw [w.ancestors_child ⟨_, hp⟩ hc, List.mem_cons, ih, w.above_child htop ⟨_, hp⟩ hc]
    refine ⟨?_, ?_⟩
    · intro h
      have ha : t.Above top parent := h.elim (fun heq => heq ▸ .refl) And.right
      exact ⟨fun heq => w.not_above_parent ⟨_, hp⟩ hc (heq ▸ ha), .inr ha⟩
    · rintro ⟨hne, heq | ha⟩
      · exact absurd heq.symm hne
      · exact (eq_or_ne top parent).imp_right fun hne' => ⟨hne'.symm, ha⟩

theorem WellFormed.isWithin_iff (htop : t.Reaches top) (h : t.Reaches node) :
    t.isWithin node top = true ↔ t.Above top node := by
  rw [isWithin, Bool.or_eq_true, decide_eq_true_eq, List.contains_iff_mem,
    w.mem_ancestors_iff htop h]
  refine ⟨?_, fun ha => (eq_or_ne node top).imp_right fun hne => ⟨hne, ha⟩⟩
  rintro (rfl | ⟨-, ha⟩)
  · exact .refl
  · exact ha

/-! ## Subtrees -/

/-- Among what is beneath a node is, in the same order, what is beneath one of its children. -/
theorem WellFormed.filter_descendants_child (hnodup : (t.children id).Nodup) (h : t.Reaches id)
    (hc : child ∈ t.children id) :
    (t.descendants id).filter (t.isWithin · child) = t.descendants child := by
  have hreach : ∀ other ∈ t.children id, ∀ node ∈ t.descendants other, t.Reaches node :=
    fun other ho node hn => (above_of_mem_descendantsTo hn).reaches (h.child ho)
  have hown : (t.descendants child).filter (t.isWithin · child) = t.descendants child :=
    List.filter_eq_self.2 fun node hn =>
      (w.isWithin_iff (h.child hc) (hreach child hc node hn)).2 (above_of_mem_descendantsTo hn)
  have hother : ∀ other ∈ t.children id, other ≠ child →
      (t.descendants other).filter (t.isWithin · child) = [] := by
    refine fun other ho hne => List.filter_eq_nil_iff.2 fun node hn hin => hne ?_
    exact w.above_unique h ho hc (above_of_mem_descendantsTo hn)
      ((w.isWithin_iff (h.child hc) (hreach other ho node hn)).1 hin)
  have hnot : t.isWithin id child ≠ true := fun hin =>
    w.not_above_parent h hc ((w.isWithin_iff (h.child hc) h).1 hin)
  obtain ⟨before, after, heq⟩ := List.append_of_mem hc
  rw [w.descendants_eq h, List.filter_cons_of_neg (p := (t.isWithin · child)) hnot,
    List.filter_flatMap]
  rw [heq] at hnodup hother ⊢
  obtain ⟨-, hright, hdisjoint⟩ := List.nodup_append.1 hnodup
  have hbefore : ∀ other ∈ before, (t.descendants other).filter (t.isWithin · child) = [] :=
    fun other ho => hother other (List.mem_append_left _ ho)
      (hdisjoint other ho child List.mem_cons_self)
  have hafter : ∀ other ∈ after, (t.descendants other).filter (t.isWithin · child) = [] :=
    fun other ho => hother other (List.mem_append_right _ (List.mem_cons_of_mem _ ho))
      fun heq => (List.nodup_cons.1 hright).1 (heq ▸ ho)
  rw [List.flatMap_append, List.flatMap_cons, List.flatMap_eq_nil_iff.2 hbefore,
    List.flatMap_eq_nil_iff.2 hafter, hown, List.nil_append, List.append_nil]

/-- The part of the nodes that is within one of them is what is beneath that. -/
theorem WellFormed.filter_reachable (hnodup : ∀ id, t.Reaches id → (t.children id).Nodup)
    (h : t.Reaches top) : t.reachable.filter (t.isWithin · top) = t.descendants top := by
  have hroot : t.Reaches t.root := ⟨0, .root⟩
  obtain ⟨n, hn⟩ := h
  induction hn with
  | root =>
    refine List.filter_eq_self.2 fun node hn => ?_
    have ha : t.Above t.root node := above_of_mem_descendantsTo hn
    exact (w.isWithin_iff hroot (ha.reaches hroot)).2 ha
  | @child n parent child hp hc ih =>
    have hchild : t.Reaches child := ⟨_, hp.child hc⟩
    have hboth : t.reachable.filter (t.isWithin · child) =
        (t.reachable.filter (t.isWithin · parent)).filter (t.isWithin · child) := by
      rw [List.filter_filter]
      refine List.filter_congr fun node hn => ?_
      have hnode : t.Reaches node := (above_of_mem_descendantsTo hn).reaches hroot
      rw [Bool.eq_iff_iff, Bool.and_eq_true, w.isWithin_iff hchild hnode,
        w.isWithin_iff ⟨_, hp⟩ hnode]
      exact ⟨fun ha => ⟨ha, ha.parent hc⟩, And.left⟩
    rw [hboth, ih, w.filter_descendants_child (hnodup parent ⟨_, hp⟩) ⟨_, hp⟩ hc]

end

/-- In a tree that was finished the walk down from a node comes to an end and lists the node and all
beneath it once, parents first and child after child. The walk up from a node ends at the root, and
meets a node just when it is another one and the walk down from there comes by. What is within a
node, in the order of all nodes, is what the walk down from it lists. -/
theorem walks_agree {d : Draft} {root : NodeId} (ht : d.finish root = .ok t)
    (hnode : t.Reaches node) (htop : t.Reaches top) :
    (∀ visited, t.Visits [top] visited ↔ visited = t.descendants top) ∧
    (t.descendants top = top :: (t.children top).flatMap t.descendants ∧
      (t.descendants top).Nodup ∧
      ∀ other, other ∈ t.descendants top ↔ t.Above top other) ∧
    (∀ path, t.Climbs node path ↔ path = t.ancestors node) ∧
    ((node :: t.ancestors node).IsChain (fun child parent => t.parent? child = some parent) ∧
      (node :: t.ancestors node).getLast? = some t.root) ∧
    (top ∈ t.ancestors node ↔ node ≠ top ∧ node ∈ t.descendants top) ∧
    (t.isWithin node top = true ↔ node ∈ t.descendants top) ∧
    t.reachable.filter (t.isWithin · top) = t.descendants top := by
  have w := Draft.finish_wellFormed ht
  have hnodup : ∀ id, t.Reaches id → (t.children id).Nodup := fun id hid =>
    Draft.finish_nodup ht hid
  have hvisits : t.Visits [top] (t.descendants top) := by
    have h := w.visits_descendants htop _ _ .done
    rwa [List.append_nil] at h
  have hclimbs := w.climbs_ancestors hnode
  have hmem : node ∈ t.descendants top ↔ t.Above top node := w.mem_descendants htop
  refine ⟨fun visited => ⟨fun h => h.unique hvisits, fun h => h ▸ hvisits⟩,
    ⟨w.descendants_eq htop, w.nodup_descendants hnodup htop, fun other => w.mem_descendants htop⟩,
    fun path => ⟨fun h => h.unique hclimbs, fun h => h ▸ hclimbs⟩,
    ⟨hclimbs.isChain, w.getLast?_ancestors hnode⟩, ?_, ?_, w.filter_reachable hnodup htop⟩
  · rw [hmem]
    exact w.mem_ancestors_iff htop hnode
  · rw [hmem]
    exact w.isWithin_iff htop hnode

/-- A list of two literals. -/
def twoLiterals : Tree :=
  ⟨#[⟨.boolean true, .zero⟩, ⟨.boolean false, .zero⟩, ⟨.list [⟨0⟩, ⟨1⟩], .zero⟩,
      ⟨.block [⟨2⟩], .zero⟩, ⟨.program ⟨3⟩, .zero⟩],
    #[some ⟨2⟩, some ⟨2⟩, some ⟨3⟩, some ⟨4⟩, none], ⟨4⟩⟩

theorem walks_agree_list : twoLiterals.edit.finish ⟨4⟩ = .ok twoLiterals ∧
    twoLiterals.Visits [⟨2⟩] [⟨2⟩, ⟨0⟩, ⟨1⟩] ∧ twoLiterals.Climbs ⟨1⟩ [⟨2⟩, ⟨3⟩, ⟨4⟩] ∧
    ⟨1⟩ ∈ twoLiterals.descendants ⟨2⟩ := by
  have ht : twoLiterals.edit.finish ⟨4⟩ = .ok twoLiterals := by rfl
  have hblock : twoLiterals.Reaches ⟨3⟩ := Reaches.child ⟨0, .root⟩ (by decide)
  have hlist : twoLiterals.Reaches ⟨2⟩ := hblock.child (by decide)
  have hitem : twoLiterals.Reaches ⟨1⟩ := hlist.child (by decide)
  obtain ⟨hvisits, -, hclimbs, -, hmem, -⟩ := walks_agree ht hitem hlist
  exact ⟨ht, (hvisits _).2 (by decide), (hclimbs _).2 (by decide), (hmem.1 (by decide)).2⟩

end ReactiveLang.Tree
