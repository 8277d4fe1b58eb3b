import ReactiveLang.Syntax.Draft

/-!
# Finished trees

`Draft.finish` visits every node that the root reaches, and none twice. So in a finished tree each
of these nodes is the child of one node only (`WellFormed`), and no node is further from the root
than there are nodes (`WellFormed.level_lt`).
-/

namespace ReactiveLang

namespace Tree

/-- The node is so many levels beneath the root. -/
inductive Level (t : Tree) : Nat → NodeId → Prop where
  | root : Level t 0 t.root
  | child {n : Nat} {parent child : NodeId} :
      Level t n parent → child ∈ t.children parent → Level t (n + 1) child

/-- The root reaches the node. -/
def Reaches (t : Tree) (id : NodeId) : Prop := ∃ n, t.Level n id

theorem Reaches.child {t : Tree} {parent child : NodeId} (h : t.Reaches parent)
    (hc : child ∈ t.children parent) : t.Reaches child :=
  h.elim fun _ hn => ⟨_, hn.child hc⟩

/-- What the root reaches is a tree. -/
structure WellFormed (t : Tree) : Prop where
  size : t.parents.size = t.nodes.size
  root : ∃ block, t.construct t.root = .program block
  /-- The root is no child. -/
  parent_root : t.parent? t.root = none
  /-- Each child knows its parent. -/
  parent_child : ∀ parent child, t.Reaches parent → child ∈ t.children parent →
    t.parent? child = some parent

variable {t : Tree}

theorem construct_eq_nothing {id : NodeId} (h : t.nodes.size ≤ id.index) :
    t.construct id = .nothing := by
  simp [construct, Array.getElem?_eq_none h]

/-- Different nodes of the store are no more than the store has. -/
theorem length_le_of_nodup {ids : List NodeId} (h : ids.Nodup)
    (hin : ∀ id ∈ ids, id.index < t.nodes.size) : ids.length ≤ t.nodes.size := by
  have hmap : (ids.map fun id => id.index).Nodup :=
    List.Pairwise.map _ (fun a b hab h => hab (by cases a; cases b; exact congrArg NodeId.mk h)) h
  have hsub : (ids.map fun id => id.index) ⊆ List.range t.nodes.size := by
    intro i hi
    obtain ⟨id, hid, rfl⟩ := List.mem_map.1 hi
    exact List.mem_range.2 (hin id hid)
  have hle := hmap.length_le_of_subset hsub
  rwa [List.length_map, List.length_range] at hle

section
variable (w : t.WellFormed)
include w

theorem WellFormed.parent_reaches {id parent : NodeId} (h : t.Reaches id)
    (hp : t.parent? id = some parent) : t.Reaches parent ∧ id ∈ t.children parent := by
  obtain ⟨n, hn⟩ := h
  cases hn with
  | root => rw [w.parent_root] at hp; cases hp
  | child hl hc =>
    rw [w.parent_child _ _ ⟨_, hl⟩ hc] at hp
    cases hp
    exact ⟨⟨_, hl⟩, hc⟩

/-- A node is at one level only. -/
theorem WellFormed.level_unique {n m : Nat} {id : NodeId} (hn : t.Level n id)
    (hm : t.Level m id) : n = m := by
  induction hn generalizing m with
  | root =>
    cases hm with
    | root => rfl
    | child hl hc =>
      have h := w.parent_child _ _ ⟨_, hl⟩ hc
      rw [w.parent_root] at h
      cases h
  | child hl hc ih =>
    have h := w.parent_child _ _ ⟨_, hl⟩ hc
    cases hm with
    | root => rw [w.parent_root] at h; cases h
    | child hl' hc' =>
      rw [w.parent_child _ _ ⟨_, hl'⟩ hc'] at h
      cases h
      rw [ih hl']

/-- The nodes on the way to the root, with the node itself. -/
theorem WellFormed.path {n : Nat} {id : NodeId} (h : t.Level n id) : ∃ path : List NodeId,
    path.length = n + 1 ∧ path.Nodup ∧ path.head? = some id ∧
      ∀ other ∈ path, ∃ m ≤ n, t.Level m other := by
  induction h with
  | root => exact ⟨[t.root], rfl, by simp, rfl, fun other ho => by
      rw [List.mem_singleton.1 ho]
      exact ⟨0, Nat.le_refl 0, .root⟩⟩
  | @child n parent id hl hc ih =>
    obtain ⟨path, hlen, hnodup, -, hlevel⟩ := ih
    refine ⟨id :: path, by rw [List.length_cons, hlen], List.nodup_cons.2 ⟨fun hmem => ?_, hnodup⟩,
      rfl, fun other ho => ?_⟩
    · obtain ⟨m, hm, hother⟩ := hlevel id hmem
      have := w.level_unique (hl.child hc) hother
      omega
    · rcases List.mem_cons.1 ho with rfl | ho
      · exact ⟨n + 1, Nat.le_refl _, hl.child hc⟩
      · obtain ⟨m, hm, hother⟩ := hlevel other ho
        exact ⟨m, by omega, hother⟩

theorem WellFormed.index_lt {id : NodeId} (h : t.Reaches id) : id.index < t.nodes.size := by
  obtain ⟨n, hn⟩ := h
  cases hn with
  | root =>
    obtain ⟨block, hb⟩ := w.root
    rcases Nat.lt_or_ge t.root.index t.nodes.size with hlt | hge
    · exact hlt
    · rw [construct_eq_nothing hge] at hb
      cases hb
  | child hl hc =>
    have h := w.parent_child _ _ ⟨_, hl⟩ hc
    rw [← w.size]
    rcases Nat.lt_or_ge id.index t.parents.size with hlt | hge
    · exact hlt
    · rw [parent?, Array.getElem?_eq_none hge] at h
      cases h

/-- There are more nodes than levels. -/
theorem WellFormed.level_lt {n : Nat} {id : NodeId} (h : t.Level n id) : n < t.nodes.size := by
  obtain ⟨path, hlen, hnodup, -, hlevel⟩ := w.path h
  have hle := length_le_of_nodup hnodup fun other ho =>
    have ⟨m, _, hm⟩ := hlevel other ho
    w.index_lt ⟨m, hm⟩
  rwa [hlen] at hle

omit w in
/-- What is beneath a node is beneath the root, so many levels deeper. -/
theorem Level.descendantsTo {n : Nat} {id : NodeId} (h : t.Level n id) (depth : Nat) :
    t.descendantsTo depth id ⊆ t.descendantsTo (n + depth) t.root := by
  induction h generalizing depth with
  | root => rw [Nat.zero_add]; exact List.Subset.refl _
  | @child n parent child _ hc ih =>
    have hparent : t.descendantsTo depth child ⊆ t.descendantsTo (depth + 1) parent := by
      intro other ho
      rw [Tree.descendantsTo]
      exact List.mem_cons_of_mem _ (List.mem_flatMap.2 ⟨child, hc, ho⟩)
    rw [Nat.add_right_comm, Nat.add_assoc]
    exact List.Subset.trans hparent (ih (depth + 1))

/-- The nodes that the root reaches are listed. -/
theorem WellFormed.mem_reachable {id : NodeId} (h : t.Reaches id) : id ∈ t.reachable := by
  obtain ⟨n, hn⟩ := h
  obtain ⟨depth, hdepth⟩ := Nat.exists_eq_add_of_lt (w.level_lt hn)
  have hself : id ∈ t.descendantsTo (depth + 1) id := by
    rw [Tree.descendantsTo]
    exact List.mem_cons_self
  rw [Tree.reachable, Tree.descendants, hdepth]
  exact hn.descendantsTo (depth + 1) hself

end
end Tree

/-! ## How parents are found -/

namespace Draft

/-- The number of nodes without a parent. -/
def orphans (parents : Array (Option NodeId)) : Nat := parents.toList.countP Option.isNone

/-- Each child had no parent and gets its own, and every other node keeps what it has. -/
structure Claimed (root parent : NodeId) (ids : List NodeId)
    (parents parents' : Array (Option NodeId)) : Prop where
  size : parents'.size = parents.size
  free : ∀ c ∈ ids, parents[c.index]? = some none
  nodup : ids.Nodup
  children : ∀ c ∈ ids, parents'[c.index]? = some (some parent)
  kept : ∀ (i : Nat) (p : NodeId), parents[i]? = some (some p) → parents'[i]? = some (some p)
  root : parents'[root.index]? = parents[root.index]?
  orphans : orphans parents' + ids.length = orphans parents

theorem claim_ok {root parent : NodeId} {children : List NodeId}
    {parents parents' : Array (Option NodeId)}
    (h : claim root parent children parents = .ok parents') :
    Claimed root parent children parents parents' := by
  induction children generalizing parents with
  | nil =>
    cases h
    exact ⟨rfl, nofun, .nil, nofun, fun _ _ h => h, rfl, rfl⟩
  | cons child rest ih =>
    unfold claim at h
    split at h
    · cases h
    · cases h
    · rename_i hnone
      split at h
      · cases h
      · rename_i hroot
        have hc := ih h
        obtain ⟨hlt, hget⟩ := Array.getElem?_eq_some_iff.1 hnone
        have hrest : ∀ c ∈ rest, child.index ≠ c.index ∧ parents[c.index]? = some none := by
          intro c hmem
          have hfree := hc.free c hmem
          rw [Array.getElem?_setIfInBounds] at hfree
          split at hfree
          · simp at hfree
          · exact ⟨‹_›, hfree⟩
        refine ⟨hc.size.trans (by simp), fun c hmem => ?_,
          List.nodup_cons.2 ⟨fun hmem => (hrest child hmem).1 rfl, hc.nodup⟩, fun c hmem => ?_,
          fun i p hp => ?_, ?_, ?_⟩
        · rcases List.mem_cons.1 hmem with rfl | hmem
          · exact hnone
          · exact (hrest c hmem).2
        · rcases List.mem_cons.1 hmem with rfl | hmem
          · exact hc.kept _ _ (by simp [hlt])
          · exact hc.children c hmem
        · refine hc.kept i p ?_
          rw [Array.getElem?_setIfInBounds]
          split
          · rename_i hi
            subst hi
            rw [hnone] at hp
            cases hp
          · exact hp
        · rw [hc.root, Array.getElem?_setIfInBounds, if_neg]
          intro hi
          exact hroot (by cases child; cases root; simpa using hi)
        · have hn := hc.orphans
          have hcount : orphans (parents.setIfInBounds child.index (some parent)) + 1 =
              orphans parents := by
            have hget' : parents.toList[child.index] = none := by simpa using hget
            have hpos : 0 < parents.toList.countP Option.isNone :=
              List.countP_pos_iff.2 ⟨none, by rw [← hget']; exact List.getElem_mem _, rfl⟩
            unfold Draft.orphans
            rw [Array.toList_setIfInBounds, List.countP_set (by simpa using hlt), hget']
            simp only [Option.isNone_none, Option.isNone_some, if_true, Bool.false_eq_true, if_false]
            omega
          rw [List.length_cons]
          omega

/-- What holds while nodes are visited: `visited` have given their children a parent, and what
they refer to was visited or waits on the stack. -/
structure Visiting (d : Draft) (root : NodeId) (visited stack : List NodeId)
    (parents : Array (Option NodeId)) : Prop where
  size : parents.size = d.nodes.size
  root_mem : root ∈ visited ∨ root ∈ stack
  root : ∀ p, parents[root.index]? ≠ some (some p)
  children : ∀ p ∈ visited, ∀ c ∈ (d.construct p).children, parents[c.index]? = some (some p)
  nodup : ∀ p ∈ visited, (d.construct p).children.Nodup
  closed : ∀ p ∈ visited, ∀ c ∈ (d.construct p).children, c ∈ visited ∨ c ∈ stack

theorem Visiting.next {d : Draft} {root parent : NodeId} {visited stack : List NodeId}
    {parents parents' : Array (Option NodeId)}
    (h : Visiting d root visited (parent :: stack) parents)
    (hc : Claimed root parent (d.construct parent).children parents parents') :
    Visiting d root (parent :: visited) ((d.construct parent).children.reverse ++ stack)
      parents' := by
  have hmem : ∀ id, id ∈ visited ∨ id ∈ parent :: stack →
      id ∈ parent :: visited ∨ id ∈ (d.construct parent).children.reverse ++ stack := by
    rintro id (hid | hid)
    · exact .inl (List.mem_cons_of_mem _ hid)
    · rcases List.mem_cons.1 hid with rfl | hid
      · exact .inl List.mem_cons_self
      · exact .inr (List.mem_append_right _ hid)
  refine ⟨hc.size.trans h.size, hmem root h.root_mem, ?_, fun p hp c hcc => ?_, fun p hp => ?_,
    fun p hp c hcc => ?_⟩
  · rw [hc.root]
    exact h.root
  · rcases List.mem_cons.1 hp with rfl | hp
    · exact hc.children c hcc
    · exact hc.kept _ _ (h.children p hp c hcc)
  · rcases List.mem_cons.1 hp with rfl | hp
    · exact hc.nodup
    · exact h.nodup p hp
  · rcases List.mem_cons.1 hp with rfl | hp
    · exact .inr (List.mem_append_left _ (List.mem_reverse.2 hcc))
    · exact hmem c (h.closed p hp c hcc)

/-- The visits end with an empty stack. -/
theorem parentsFrom_ok {d : Draft} {root : NodeId} {fuel : Nat} {visited stack : List NodeId}
    {parents parents' : Array (Option NodeId)} (h : Visiting d root visited stack parents)
    (hfuel : stack.length + orphans parents ≤ fuel)
    (hok : d.parentsFrom root fuel stack parents = .ok parents') :
    ∃ visited, Visiting d root visited [] parents' := by
  induction fuel generalizing visited stack parents with
  | zero =>
    cases hok
    obtain rfl : stack = [] := List.eq_nil_of_length_eq_zero (by omega)
    exact ⟨visited, h⟩
  | succ fuel ih =>
    unfold parentsFrom at hok
    cases stack with
    | nil => cases hok; exact ⟨visited, h⟩
    | cons parent stack =>
      dsimp only at hok
      split at hok
      · cases hok
      · rename_i parents1 hclaim
        have hc := claim_ok hclaim
        refine ih (h.next hc) ?_ hok
        have := hc.orphans
        rw [List.length_append, List.length_reverse]
        rw [List.length_cons] at hfuel
        omega

/-- The visits of a draft that was finished have come to every node that the root reaches. -/
theorem finish_visited {d : Draft} {root : NodeId} {t : Tree} (h : d.finish root = .ok t) :
    (∃ block, d.construct root = .program block) ∧ ∃ parents visited, t = ⟨d.nodes, parents, root⟩ ∧
      Visiting d root visited [] parents ∧ ∀ id, t.Reaches id → id ∈ visited := by
  unfold finish at h
  split at h
  · rename_i block hb
    split at h
    · rename_i parents hparents
      cases h
      have hstart : Visiting d root [] [root] (Array.replicate d.nodes.size none) :=
        ⟨by simp, .inr (by simp), by simp [Array.getElem?_replicate], nofun, nofun, nofun⟩
      have horphans : orphans (Array.replicate d.nodes.size none) = d.nodes.size := by
        simp [orphans, List.countP_replicate]
      obtain ⟨visited, hv⟩ := parentsFrom_ok hstart (by rw [horphans]; simp; omega) hparents
      refine ⟨⟨block, hb⟩, parents, visited, rfl, hv, fun id hid => ?_⟩
      obtain ⟨n, hl⟩ := hid
      induction hl with
      | root => exact hv.root_mem.resolve_right (by simp)
      | child _ hc ih => exact (hv.closed _ ih _ hc).resolve_right (by simp)
    · cases h
  · cases h

/-- A tree that was finished is well formed. -/
theorem finish_wellFormed {d : Draft} {root : NodeId} {t : Tree} (h : d.finish root = .ok t) :
    t.WellFormed := by
  obtain ⟨hroot, parents, visited, rfl, hv, hreach⟩ := finish_visited h
  refine ⟨hv.size, hroot, ?_, fun p c hp hc => ?_⟩
  · have := hv.root
    unfold Tree.parent?
    dsimp only
    cases hr : parents[root.index]? with
    | none => rfl
    | some o =>
      cases o with
      | none => rfl
      | some p => exact absurd hr (this p)
  · have := hv.children p (hreach p hp) c hc
    unfold Tree.parent?
    dsimp only
    rw [this]
    rfl

/-- In a tree that was finished no node has a child twice. -/
theorem finish_nodup {d : Draft} {root : NodeId} {t : Tree} (h : d.finish root = .ok t)
    {p : NodeId} (hp : t.Reaches p) : (t.children p).Nodup := by
  obtain ⟨-, parents, visited, rfl, hv, hreach⟩ := finish_visited h
  exact hv.nodup p (hreach p hp)

end Draft
end ReactiveLang
