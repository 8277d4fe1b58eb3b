import ReactiveLang.Proofs.Syntax.Finishing
import ReactiveLang.Proofs.Syntax.Walks

/-!
# Replacing a node

A replacement changes the construct at one place and finds all parents anew. The new construct may
refer to anything: to nodes of the old subtree, to nodes that were detached, to nodes above or to
nodes that are used elsewhere. Still no other part of the tree moves, as what the root reaches
without the node (`Tree.Outside`) refers to what it did.

* `Tree.outside_or_beneath`: in the edited store the root reaches what is outside and, if it reached
  the node, what the node now reaches.
* `Tree.isTreeAt_edited_iff`: what the new construct has to be for the edit to be a tree.
* `replacement_local`: when a replacement succeeds, and what it leaves as it was.
-/

namespace ReactiveLang

/-! ## Strictly beneath a node of a draft -/

namespace Draft

variable {d : Draft} {top node other root : NodeId}

/-- The node is a child of what `top` reaches. -/
def Beneath (d : Draft) (top child : NodeId) : Prop :=
  ∃ parent, d.Reaches top parent ∧ child ∈ (d.construct parent).children

/-- Of what `top` reaches, one node has the child, and has it once. -/
def ClaimedOnce (d : Draft) (top child : NodeId) : Prop :=
  ∃ parent, d.Reaches top parent ∧ (d.construct parent).children.count child = 1 ∧
    ∀ parent', d.Reaches top parent' → child ∈ (d.construct parent').children → parent' = parent

theorem Reaches.trans (h : d.Reaches top node) (h' : d.Reaches node other) :
    d.Reaches top other := by
  induction h' with
  | root => exact h
  | child _ hc ih => exact ih.child hc

theorem Reaches.beneath (h : d.Reaches top node) (hne : node ≠ top) : d.Beneath top node := by
  cases h with
  | root => exact absurd rfl hne
  | child hp hc => exact ⟨_, hp, hc⟩

theorem Finished.above_iff {t : Tree} (hf : d.Finished root t) :
    t.Above top node ↔ d.Reaches top node := by
  constructor
  · intro h
    induction h with
    | refl => exact .root
    | child _ hc ih =>
      rw [Tree.children, hf.construct_eq] at hc
      exact ih.child hc
  · intro h
    induction h with
    | root => exact .refl
    | child _ hc ih =>
      refine ih.child ?_
      rw [Tree.children, hf.construct_eq]
      exact hc

end Draft

namespace Tree

variable {t : Tree} {id node child : NodeId} {kind : Construct}

/-! ## The edited store -/

/-- A draft with this tree's nodes, and another construct at one place. -/
def edited (t : Tree) (id : NodeId) (kind : Construct) : Draft :=
  ⟨t.nodes.setIfInBounds id.index ⟨kind, t.span id⟩⟩

@[simp] theorem size_edited : (t.edited id kind).nodes.size = t.nodes.size :=
  Array.size_setIfInBounds

theorem construct_edited_self (h : id.index < t.nodes.size) :
    (t.edited id kind).construct id = kind := by
  simp [Draft.construct, edited, h]

theorem construct_edited_of_ne (h : node ≠ id) :
    (t.edited id kind).construct node = t.construct node := by
  have hindex : id.index ≠ node.index := fun heq => h (by cases node; cases id; simp_all)
  have hnode : (t.edited id kind).nodes[node.index]? = t.nodes[node.index]? :=
    Array.getElem?_setIfInBounds_ne hindex
  unfold Draft.construct
  rw [hnode]
  rfl

theorem span_of_nodes {t' : Tree} (h : t'.nodes = (t.edited id kind).nodes) :
    t'.span node = t.span node := by
  rw [span, h]
  by_cases hindex : id.index = node.index
  · obtain rfl : id = node := congrArg NodeId.mk hindex
    by_cases hlt : id.index < t.nodes.size
    · simp [edited, hlt]
    · simp [edited, span, hlt]
  · simp only [edited, Array.getElem?_setIfInBounds_ne hindex, span]

/-- With its own construct nothing is edited. -/
theorem edited_construct (h : id.index < t.nodes.size) : t.edited id (t.construct id) = t.edit := by
  have hnode : (⟨t.construct id, t.span id⟩ : Node) = t.nodes[id.index] := by
    simp [construct, span, h]
  rw [edited, hnode, edit, Array.setIfInBounds, dif_pos h, Array.set_getElem_self]

theorem replace_edit (h : id.index < t.nodes.size) :
    t.edit.replace id kind = .ok (t.edited id kind) := by
  simp [Draft.replace, edit, edited, span, h]

theorem withReplacement_eq (h : id.index < t.nodes.size) :
    t.withReplacement id kind = (t.edited id kind).finish t.root := by
  rw [withReplacement, replace_edit h]

theorem withReplacement_missing (h : t.nodes.size ≤ id.index) :
    t.withReplacement id kind = .error (.missingNode id) := by
  simp [withReplacement, Draft.replace, edit, h]

theorem withReplacement_error_iff {other : NodeId} :
    t.withReplacement id kind = .error (.missingNode other) ↔
      t.nodes.size ≤ id.index ∧ other = id := by
  constructor
  · intro h
    by_cases hlt : id.index < t.nodes.size
    · rw [withReplacement_eq hlt] at h
      cases Draft.finish_error h
    · have hge := Nat.le_of_not_lt hlt
      rw [withReplacement_missing hge] at h
      cases h
      exact ⟨hge, rfl⟩
  · rintro ⟨hge, rfl⟩
    exact withReplacement_missing hge

/-- The store that a tree was made of still gives that tree. -/
theorem finish_edit {d : Draft} {root : NodeId} (ht : d.finish root = .ok t) :
    t.edit.finish t.root = .ok t := by
  have hf := (Draft.finish_ok ht).2
  obtain ⟨nodes, parents, top⟩ := t
  obtain rfl : nodes = d.nodes := hf.nodes
  obtain rfl : top = root := hf.root_eq
  exact ht

/-- What a node has to be so that it can be beneath the edited one: it is in the store, has one
place there and none elsewhere. -/
structure Fits (t : Tree) (id : NodeId) (kind : Construct) (child : NodeId) : Prop where
  stored : child.index < t.nodes.size
  once : (t.edited id kind).ClaimedOnce id child
  ne_self : child ≠ id
  ne_root : child ≠ t.root
  within : t.Reaches child → t.isWithin child id = true

/-! ## Outside of a node -/

/-- The root reaches the node on a way that does not lead over `id`. -/
inductive Outside (t : Tree) (id : NodeId) : NodeId → Prop where
  | root : t.root ≠ id → Outside t id t.root
  | child {parent child : NodeId} : Outside t id parent → child ∈ t.children parent → child ≠ id →
      Outside t id child

theorem Outside.ne (h : t.Outside id node) : node ≠ id := by
  cases h with
  | root hne => exact hne
  | child _ _ hne => exact hne

theorem Outside.reaches (h : t.Outside id node) : t.Reaches node := by
  induction h with
  | root _ => exact ⟨0, .root⟩
  | child _ hc _ ih => exact ih.child hc

theorem outside_or_above (h : t.Reaches node) :
    t.Outside id node ∨ t.Reaches id ∧ t.Above id node := by
  obtain ⟨n, hn⟩ := h
  induction hn with
  | root =>
    by_cases heq : t.root = id
    · exact .inr (heq ▸ ⟨⟨0, .root⟩, .refl⟩)
    · exact .inl (.root heq)
  | @child n parent child hp hc ih =>
    rcases ih with ho | ⟨hid, ha⟩
    · by_cases heq : child = id
      · exact .inr (heq ▸ ⟨⟨_, hp.child hc⟩, .refl⟩)
      · exact .inl (ho.child hc heq)
    · exact .inr ⟨hid, ha.child hc⟩

section
variable (w : t.WellFormed)
include w

theorem Outside.isWithin (h : t.Outside id node) : t.isWithin node id = false := by
  induction h with
  | root hne => simp [Tree.isWithin, w.ancestors_root, hne]
  | @child parent child ho hc hne ih =>
    rw [Tree.isWithin, w.ancestors_child ho.reaches hc]
    simp only [Tree.isWithin, Bool.or_eq_false_iff, decide_eq_false_iff_not] at ih ⊢
    rw [List.contains_cons, Bool.or_eq_false_iff, beq_eq_false_iff_ne]
    exact ⟨hne, Ne.symm ih.1, ih.2⟩

theorem WellFormed.outside_iff :
    t.Outside id node ↔ t.Reaches node ∧ t.isWithin node id = false := by
  refine ⟨fun h => ⟨h.reaches, h.isWithin w⟩, fun ⟨hr, hout⟩ => ?_⟩
  refine (outside_or_above hr).resolve_right fun ⟨hid, ha⟩ => ?_
  rw [(w.isWithin_iff hid hr).2 ha] at hout
  cases hout

/-- What a node is a child of is outside of it. -/
theorem WellFormed.outside_parent (h : t.Reaches node) (hc : id ∈ t.children node) :
    t.Outside id node :=
  (outside_or_above h).resolve_right fun ⟨_, ha⟩ => w.not_above_parent h hc ha

end

/-! ## What the root reaches after an edit -/

/-- A node outside has the children that it had. -/
theorem Outside.children_edited (h : t.Outside id node) :
    ((t.edited id kind).construct node).children = t.children node := by
  rw [construct_edited_of_ne h.ne, children]

theorem Outside.reaches_edited (h : t.Outside id node) :
    (t.edited id kind).Reaches t.root node := by
  induction h with
  | root _ => exact .root
  | child ho hc _ ih => exact ih.child (by rwa [ho.children_edited])

theorem outside_or_beneath (h : (t.edited id kind).Reaches t.root node) :
    t.Outside id node ∨ t.Reaches id ∧ (t.edited id kind).Reaches id node := by
  induction h with
  | root =>
    by_cases heq : t.root = id
    · exact .inr (heq ▸ ⟨⟨0, .root⟩, .root⟩)
    · exact .inl (.root heq)
  | @child parent child _ hc ih =>
    rcases ih with ho | ⟨hid, hr⟩
    · rw [ho.children_edited] at hc
      by_cases heq : child = id
      · exact .inr (heq ▸ ⟨ho.reaches.child hc, .root⟩)
      · exact .inl (ho.child hc heq)
    · exact .inr ⟨hid, hr.child hc⟩

section
variable (w : t.WellFormed)
include w

theorem WellFormed.reaches_edited_self (h : t.Reaches id) :
    (t.edited id kind).Reaches t.root id := by
  obtain ⟨n, hn⟩ := h
  cases hn with
  | root => exact .root
  | child hp hc =>
    have ho := w.outside_parent ⟨_, hp⟩ hc
    exact ho.reaches_edited.child (by rwa [ho.children_edited])

/-- A tree does not lead from the edited node to what is outside of it. -/
theorem Outside.not_reached (ho : t.Outside id node) (hid : t.Reaches id)
    (ht : (t.edited id kind).IsTreeAt t.root) : ¬ (t.edited id kind).Reaches id node := by
  have htop : (t.edited id kind).Reaches t.root id := w.reaches_edited_self hid
  induction ho with
  | root hne =>
    intro hr
    obtain ⟨parent, hp, hc⟩ := hr.beneath hne
    exact ht.root_free parent (htop.trans hp) hc
  | @child parent child ho hc hne ih =>
    intro hr
    obtain ⟨parent', hp, hc'⟩ := hr.beneath hne
    have heq : parent' = parent := ht.unique parent' parent child (htop.trans hp) ho.reaches_edited
      hc' (by rwa [ho.children_edited])
    exact ih (heq ▸ hp)

/-- Beneath the edited node of a tree there is neither that node, nor the root, nor anything from
outside, and nothing twice. -/
theorem WellFormed.fits_of_isTreeAt (hid : t.Reaches id)
    (ht : (t.edited id kind).IsTreeAt t.root) (h : (t.edited id kind).Beneath id child) :
    t.Fits id kind child := by
  obtain ⟨parent, hp, hc⟩ := h
  have htop : (t.edited id kind).Reaches t.root id := w.reaches_edited_self hid
  have hparent := htop.trans hp
  have hself : id ∉ ((t.edited id kind).construct parent).children := by
    intro hmem
    obtain ⟨n, hn⟩ := hid
    cases hn with
    | root => exact ht.root_free parent hparent hmem
    | @child n above _ ha hca =>
      have ho := w.outside_parent ⟨n, ha⟩ hca
      have heq : parent = above := ht.unique parent above id hparent ho.reaches_edited hmem
        (by rwa [ho.children_edited])
      exact ho.not_reached w ⟨_, ha.child hca⟩ ht (heq ▸ hp)
  refine ⟨by simpa using ht.stored parent child hparent hc, ⟨parent, hp, ?_, ?_⟩, ?_, ?_, ?_⟩
  · exact List.count_eq_one_of_mem (ht.nodup parent hparent) hc
  · exact fun parent' hp' hc' => ht.unique parent' parent child (htop.trans hp') hparent hc' hc
  · exact fun heq => hself (heq ▸ hc)
  · exact fun heq => ht.root_free parent hparent (heq ▸ hc)
  · intro hr
    refine by_contra fun hout => ?_
    have ho : t.Outside id child := w.outside_iff.2 ⟨hr, eq_false_of_ne_true hout⟩
    exact ho.not_reached w hid ht (hp.child hc)

/-- If all beneath the edited node is as it has to be, the edit is a tree: what is outside was one,
and it has no child that is also beneath the node. -/
theorem WellFormed.isTreeAt_of_fits (hnodup : ∀ node, t.Reaches node → (t.children node).Nodup)
    (hroot : ∃ block, (t.edited id kind).construct t.root = .program block)
    (h : ∀ child, (t.edited id kind).Beneath id child → t.Fits id kind child) :
    (t.edited id kind).IsTreeAt t.root := by
  -- no child of a node outside is also a child of a node beneath
  have hdisjoint : ∀ {outer inner child}, t.Outside id outer → child ∈ t.children outer →
      (t.edited id kind).Reaches id inner →
        child ∉ ((t.edited id kind).construct inner).children := by
    intro outer inner child ho hc hr hc'
    have hfits := h child ⟨inner, hr, hc'⟩
    have hout := (ho.child hc hfits.ne_self).isWithin w
    rw [hfits.within (ho.reaches.child hc)] at hout
    cases hout
  refine ⟨⟨by simpa using w.index_lt ⟨0, .root⟩, hroot⟩, fun p c hp hc => ?_, fun p hp => ?_,
    fun p q c hp hq hpc hqc => ?_, fun p hp hc => ?_⟩
  · rcases outside_or_beneath hp with ho | ⟨-, hr⟩
    · rw [ho.children_edited] at hc
      simpa using w.index_lt (ho.reaches.child hc)
    · simpa using (h c ⟨p, hr, hc⟩).stored
  · rcases outside_or_beneath hp with ho | ⟨-, hr⟩
    · rw [ho.children_edited]
      exact hnodup p ho.reaches
    · refine List.nodup_iff_count_le_one.2 fun c => ?_
      by_cases hc : c ∈ ((t.edited id kind).construct p).children
      · obtain ⟨q, -, hcount, hall⟩ := (h c ⟨p, hr, hc⟩).once
        rw [hall p hr hc]
        exact Nat.le_of_eq hcount
      · rw [List.count_eq_zero_of_not_mem hc]
        exact Nat.zero_le 1
  · rcases outside_or_beneath hp with hop | ⟨-, hrp⟩ <;>
      rcases outside_or_beneath hq with hoq | ⟨-, hrq⟩
    · rw [hop.children_edited] at hpc
      rw [hoq.children_edited] at hqc
      exact Option.some.inj ((w.parent_child p c hop.reaches hpc).symm.trans
        (w.parent_child q c hoq.reaches hqc))
    · rw [hop.children_edited] at hpc
      exact absurd hqc (hdisjoint hop hpc hrq)
    · rw [hoq.children_edited] at hqc
      exact absurd hpc (hdisjoint hoq hqc hrp)
    · obtain ⟨_, -, -, hall⟩ := (h c ⟨p, hrp, hpc⟩).once
      exact (hall p hrp hpc).trans (hall q hrq hqc).symm
  · rcases outside_or_beneath hp with ho | ⟨-, hr⟩
    · rw [ho.children_edited] at hc
      have hparent := w.parent_child p t.root ho.reaches hc
      rw [w.parent_root] at hparent
      cases hparent
    · exact (h t.root ⟨p, hr, hc⟩).ne_root rfl

/-- When the edit is a tree. -/
theorem WellFormed.isTreeAt_edited_iff (hnodup : ∀ node, t.Reaches node → (t.children node).Nodup)
    (hid : t.Reaches id) :
    (t.edited id kind).IsTreeAt t.root ↔
      (∃ block, (t.edited id kind).construct t.root = .program block) ∧
      ∀ child, (t.edited id kind).Beneath id child → t.Fits id kind child :=
  ⟨fun ht => ⟨ht.program.2, fun _ h => w.fits_of_isTreeAt hid ht h⟩,
    fun ⟨hroot, h⟩ => w.isTreeAt_of_fits hnodup hroot h⟩

/-! ## What a replacement leaves -/

variable {t' : Tree} (hf : (t.edited id kind).Finished t.root t')
include hf

/-- What is not within the node after the edit was in the tree before, under the same parent. -/
theorem WellFormed.outside_kept (w' : t'.WellFormed) (hr : t'.Reaches node)
    (hout : t'.isWithin node id = false) : t.Reaches node ∧ t'.parent? node = t.parent? node := by
  have ho : t.Outside id node := by
    refine (outside_or_beneath (hf.reaches_iff.1 hr)).resolve_right fun ⟨hid, hin⟩ => ?_
    have hid' : t'.Reaches id := hf.reaches_iff.2 (w.reaches_edited_self hid)
    rw [(w'.isWithin_iff hid' hr).2 (hf.above_iff.2 hin)] at hout
    cases hout
  refine ⟨ho.reaches, ?_⟩
  cases ho with
  | root _ => rw [w.parent_root, hf.parent_root]
  | @child parent _ hp hc _ =>
    rw [w.parent_child parent node hp.reaches hc]
    exact (hf.parent_iff parent node).2
      ⟨hp.reaches_edited, by rwa [hp.children_edited]⟩

/-- What was beneath the node, and is not reached from its new construct, is in the tree no more. -/
theorem WellFormed.beneath_detached (hin : id ∈ t.ancestors node)
    (hnot : ¬ (t.edited id kind).Reaches id node) :
    t'.parent? node = none ∧ node ∉ t'.reachable := by
  have hunreached : ¬ (t.edited id kind).Reaches t.root node := by
    intro hr
    rcases outside_or_beneath hr with ho | ⟨-, hr⟩
    · have hout := ho.isWithin w
      rw [isWithin, Bool.or_eq_false_iff] at hout
      exact absurd (List.contains_iff_mem.2 hin) (ne_true_of_eq_false hout.2)
    · exact hnot hr
  refine ⟨hf.parent_unreached node hunreached, fun hmem => hunreached ?_⟩
  exact hf.reaches_iff.1 ((above_of_mem_descendantsTo hmem).reaches ⟨0, .root⟩)

end

/-- A replacement fails for a missing node, and else as finishing the edited store does. If the node
is in the tree it succeeds just when the root stays a program and all that is then beneath the node
is in the store, has one place there and none elsewhere. It changes the construct of the node and
otherwise only what is in the tree beneath it; what was beneath it and is no more has no parent. The
node's own construct gives the same tree, and the store of the tree still gives the tree. -/
theorem replacement_local {d : Draft} {root : NodeId} (ht : d.finish root = .ok t) (id : NodeId)
    (kind : Construct) :
    (∀ other, t.withReplacement id kind = .error (.missingNode other) ↔
      t.nodes.size ≤ id.index ∧ other = id) ∧
    (id.index < t.nodes.size →
      t.withReplacement id kind = (t.edited id kind).finish t.root) ∧
    (t.Reaches id →
      ((∃ t', t.withReplacement id kind = .ok t') ↔
        (∃ block, (t.edited id kind).construct t.root = .program block) ∧
        ∀ child, (t.edited id kind).Beneath id child → t.Fits id kind child)) ∧
    (∀ t', t.withReplacement id kind = .ok t' →
      t'.root = t.root ∧ t'.nodes.size = t.nodes.size ∧ (∀ node, t'.span node = t.span node) ∧
      t'.construct id = kind ∧ (∀ node, node ≠ id → t'.construct node = t.construct node) ∧
      (∀ node, t'.Reaches node → t'.isWithin node id = false →
        t.Reaches node ∧ t'.parent? node = t.parent? node) ∧
      ∀ node, id ∈ t.ancestors node → ¬ (t.edited id kind).Reaches id node →
        t'.parent? node = none ∧ node ∉ t'.reachable) ∧
    (id.index < t.nodes.size → t.withReplacement id (t.construct id) = .ok t) ∧
    t.edit.finish t.root = .ok t := by
  have w := Draft.finish_wellFormed ht
  have hnodup : ∀ node, t.Reaches node → (t.children node).Nodup := fun node hr =>
    Draft.finish_nodup ht hr
  have hedit := finish_edit ht
  refine ⟨fun other => withReplacement_error_iff, withReplacement_eq, fun hid => ?_,
    fun t' h => ?_, fun hlt => ?_, hedit⟩
  · rw [withReplacement_eq (w.index_lt hid), (Draft.finish_accepts _ _).2.1]
    exact w.isTreeAt_edited_iff hnodup hid
  · have hlt : id.index < t.nodes.size := by
      refine Nat.lt_of_not_le fun hge => ?_
      rw [withReplacement_missing hge] at h
      cases h
    rw [withReplacement_eq hlt] at h
    have hf := (Draft.finish_ok h).2
    refine ⟨hf.root_eq, by rw [hf.nodes, size_edited], fun node => span_of_nodes hf.nodes,
      by rw [hf.construct_eq, construct_edited_self hlt],
      fun node hne => by rw [hf.construct_eq, construct_edited_of_ne hne],
      fun node => w.outside_kept hf (Draft.finish_wellFormed h), fun node => w.beneath_detached hf⟩
  · rw [withReplacement_eq hlt, edited_construct hlt, hedit]

/-- A list loses an item, which is in the tree no more. It cannot have the block around it. -/
theorem replacement_local_list : twoLiterals.edit.finish ⟨4⟩ = .ok twoLiterals ∧
    (∃ t', twoLiterals.withReplacement ⟨2⟩ (.list [⟨1⟩]) = .ok t' ∧
      t'.parent? ⟨1⟩ = twoLiterals.parent? ⟨1⟩ ∧ t'.parent? ⟨0⟩ = none ∧ ⟨0⟩ ∉ t'.reachable) ∧
    ¬ ∃ t', twoLiterals.withReplacement ⟨2⟩ (.list [⟨3⟩]) = .ok t' := by
  have ht : twoLiterals.edit.finish ⟨4⟩ = .ok twoLiterals := by rfl
  have hblock : twoLiterals.Reaches ⟨3⟩ := Reaches.child ⟨0, .root⟩ (by decide)
  have hlist : twoLiterals.Reaches ⟨2⟩ := hblock.child (by decide)
  have hitem : ∀ node, (twoLiterals.edited ⟨2⟩ (.list [⟨1⟩])).Reaches ⟨2⟩ node →
      node = ⟨2⟩ ∨ node = ⟨1⟩ := by
    intro node h
    induction h with
    | root => exact .inl rfl
    | child _ hc ih =>
      rcases ih with rfl | rfl
      · exact .inr (List.mem_singleton.1 hc)
      · cases hc
  refine ⟨ht, ⟨_, rfl, rfl, ?_⟩, fun hok => ?_⟩
  · obtain ⟨-, -, -, hkept, -⟩ := replacement_local ht ⟨2⟩ (.list [⟨1⟩])
    obtain ⟨-, -, -, -, -, -, hdetached⟩ := hkept _ rfl
    exact hdetached ⟨0⟩ (by decide) fun h => absurd (hitem _ h) (by decide)
  · obtain ⟨-, -, hiff, -⟩ := replacement_local ht ⟨2⟩ (.list [⟨3⟩])
    have hbeneath : twoLiterals.Fits _ _ _ :=
      ((hiff hlist).1 hok).2 ⟨3⟩ ⟨⟨2⟩, .root, List.mem_singleton.2 rfl⟩
    exact absurd (hbeneath.within hblock) (by decide)

end Tree
end ReactiveLang
