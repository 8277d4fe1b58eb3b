import Mathlib.Data.List.Nodup
import ReactiveLang.Proofs.Syntax.Finished

/-!
# Which drafts are trees

* `Draft.IsTreeAt`: what the root reaches is a tree. `Draft.Breach`: a tree error names nodes that
  keep it from being one.
* `Draft.Walk`: the visits that `finish` makes, without a bound on their number. `walk_parentsFrom`:
  they come to an end within the bound that `finish` has, whatever the children refer to.
* `finish_accepts`: a draft can be finished just when it is a tree at the root, each child then knows
  its parent and no other node has one, and an error names what is wrong.
-/

namespace ReactiveLang.Draft

/-! ## Trees and what keeps a draft from being one -/

/-- The root reaches the node over children, which may be missing from the store. -/
inductive Reaches (d : Draft) (root : NodeId) : NodeId → Prop where
  | root : Reaches d root root
  | child {parent child : NodeId} : Reaches d root parent →
      child ∈ (d.construct parent).children → Reaches d root child

/-- What the root reaches is a tree. -/
structure IsTreeAt (d : Draft) (root : NodeId) : Prop where
  program : root.index < d.nodes.size ∧ ∃ block, d.construct root = .program block
  /-- Every child is in the store. -/
  stored : ∀ p c, d.Reaches root p → c ∈ (d.construct p).children → c.index < d.nodes.size
  /-- No node has a child twice. -/
  nodup : ∀ p, d.Reaches root p → (d.construct p).children.Nodup
  /-- No two nodes have the same child. -/
  unique : ∀ p q c, d.Reaches root p → d.Reaches root q → c ∈ (d.construct p).children →
    c ∈ (d.construct q).children → p = q
  /-- The root is no child. -/
  root_free : ∀ p, d.Reaches root p → root ∉ (d.construct p).children

/-- The error names nodes that the root reaches and that cannot be in a tree together. -/
inductive Breach (d : Draft) (root : NodeId) : TreeError → Prop where
  | rootNotProgram (h : ∀ block, d.construct root ≠ .program block) :
      Breach d root (.rootNotProgram root)
  | missingChild {parent child : NodeId} (reaches : d.Reaches root parent)
      (mem : child ∈ (d.construct parent).children) (missing : d.nodes.size ≤ child.index) :
      Breach d root (.missingChild parent child)
  | rootChild {parent : NodeId} (reaches : d.Reaches root parent)
      (mem : root ∈ (d.construct parent).children) : Breach d root (.sharedChild root root parent)
  | twoParents {child first second : NodeId} (ne : first ≠ second)
      (reaches : d.Reaches root first) (mem : child ∈ (d.construct first).children)
      (reaches' : d.Reaches root second) (mem' : child ∈ (d.construct second).children) :
      Breach d root (.sharedChild child first second)
  | twice {child parent : NodeId} (reaches : d.Reaches root parent)
      (count : 2 ≤ (d.construct parent).children.count child) :
      Breach d root (.sharedChild child parent parent)

variable {d : Draft} {root parent : NodeId} {stack visited children : List NodeId}
  {parents parents' : Array (Option NodeId)} {e : TreeError}

theorem Breach.not_isTreeAt (h : d.Breach root e) : ¬ d.IsTreeAt root := by
  intro t
  cases h with
  | rootNotProgram h =>
    obtain ⟨block, hb⟩ := t.program.2
    exact h block hb
  | missingChild hr hm hmissing => exact absurd (t.stored _ _ hr hm) (Nat.not_lt_of_le hmissing)
  | rootChild hr hm => exact t.root_free _ hr hm
  | twoParents hne hr hm hr' hm' => exact hne (t.unique _ _ _ hr hr' hm hm')
  | twice hr hcount =>
    have := List.nodup_iff_count_le_one.1 (t.nodup _ hr)
    exact absurd (this _) (Nat.not_le_of_lt hcount)

/-! ## One visit -/

/-- A node has the parent that a visit gave it, or the one that it had. -/
theorem parent_of_claim (h : claim root parent children parents = .ok parents') {i : Nat}
    {p : NodeId} (hp : parents'[i]? = some (some p)) :
    (p = parent ∧ ⟨i⟩ ∈ children) ∨ parents[i]? = some (some p) := by
  induction children generalizing parents with
  | nil =>
    cases h
    exact .inr hp
  | cons child rest ih =>
    unfold claim at h
    split at h
    · cases h
    · cases h
    · split at h
      · cases h
      · rcases ih h with ⟨rfl, hm⟩ | hbefore
        · exact .inl ⟨rfl, List.mem_cons_of_mem _ hm⟩
        · rw [Array.getElem?_setIfInBounds] at hbefore
          split at hbefore
          · rename_i hi
            subst hi
            split at hbefore
            · cases hbefore
              exact .inl ⟨rfl, List.mem_cons_self⟩
            · cases hbefore
          · exact .inr hbefore

/-- Why a visit fails at one of the children. -/
inductive Refusal (root parent : NodeId) (children : List NodeId)
    (parents : Array (Option NodeId)) : TreeError → Prop where
  | missing {child : NodeId} (mem : child ∈ children) (missing : parents.size ≤ child.index) :
      Refusal root parent children parents (.missingChild parent child)
  | root (mem : root ∈ children) :
      Refusal root parent children parents (.sharedChild root root parent)
  | taken {child first : NodeId} (mem : child ∈ children)
      (taken : parents[child.index]? = some (some first)) :
      Refusal root parent children parents (.sharedChild child first parent)
  | twice {child : NodeId} (count : 2 ≤ children.count child) :
      Refusal root parent children parents (.sharedChild child parent parent)

theorem refusal_of_claim (h : claim root parent children parents = .error e) :
    Refusal root parent children parents e := by
  induction children generalizing parents with
  | nil => cases h
  | cons child rest ih =>
    unfold claim at h
    split at h
    · rename_i hnone
      cases h
      exact .missing List.mem_cons_self (by simpa using hnone)
    · rename_i hsome
      cases h
      exact .taken List.mem_cons_self hsome
    · split at h
      · rename_i hroot
        cases h
        subst hroot
        exact .root List.mem_cons_self
      · cases ih h with
        | missing hm hmissing =>
          exact .missing (List.mem_cons_of_mem _ hm) (by simpa using hmissing)
        | root hm => exact .root (List.mem_cons_of_mem _ hm)
        | twice hcount => exact .twice (Nat.le_trans hcount List.count_le_count_cons)
        | @taken c first hm htaken =>
          rw [Array.getElem?_setIfInBounds] at htaken
          split at htaken
          · rename_i hi
            obtain rfl : child = c := congrArg NodeId.mk hi
            split at htaken
            · cases htaken
              refine .twice ?_
              rw [List.count_cons_self]
              exact Nat.succ_le_succ (List.count_pos_iff.2 hm)
            · cases htaken
          · exact .taken (List.mem_cons_of_mem _ hm) htaken

/-! ## All visits -/

/-- Visits go on from a stack until it is empty or a child cannot be claimed. -/
inductive Walk (d : Draft) (root : NodeId) : List NodeId → Array (Option NodeId) →
    Except TreeError (Array (Option NodeId)) → Prop where
  | done (parents : Array (Option NodeId)) : Walk d root [] parents (.ok parents)
  | fails {parent : NodeId} {stack : List NodeId} {parents : Array (Option NodeId)} {e : TreeError} :
      claim root parent (d.construct parent).children parents = .error e →
        Walk d root (parent :: stack) parents (.error e)
  | visits {parent : NodeId} {stack : List NodeId} {parents parents' : Array (Option NodeId)}
      {result : Except TreeError (Array (Option NodeId))} :
      claim root parent (d.construct parent).children parents = .ok parents' →
        Walk d root ((d.construct parent).children.reverse ++ stack) parents' result →
          Walk d root (parent :: stack) parents result

/-- The visits end within a bound: each node that waits on the stack or has no parent yet is
visited at most once. -/
theorem walk_parentsFrom {fuel : Nat} (hfuel : stack.length + orphans parents ≤ fuel) :
    d.Walk root stack parents (d.parentsFrom root fuel stack parents) := by
  induction fuel generalizing stack parents with
  | zero =>
    obtain rfl : stack = [] := List.eq_nil_of_length_eq_zero (by omega)
    exact .done parents
  | succ fuel ih =>
    cases stack with
    | nil => exact .done parents
    | cons parent stack =>
      rw [parentsFrom]
      split
      · rename_i hclaim
        exact .fails hclaim
      · rename_i hclaim
        refine .visits hclaim (ih ?_)
        have := (claim_ok hclaim).orphans
        rw [List.length_append, List.length_reverse]
        rw [List.length_cons] at hfuel
        omega

/-- What holds while nodes are visited: all of them are reached, and a node other than the root has
the parent that it was found under. -/
structure Walking (d : Draft) (root : NodeId) (visited stack : List NodeId)
    (parents : Array (Option NodeId)) : Prop where
  visiting : Visiting d root visited stack parents
  nodup : (visited ++ stack).Nodup
  reaches : ∀ id ∈ visited ++ stack, d.Reaches root id
  found : ∀ id ∈ visited ++ stack, id ≠ root → ∃ p, parents[id.index]? = some (some p)
  claimed : ∀ (i : Nat) (p : NodeId), parents[i]? = some (some p) →
    p ∈ visited ∧ ⟨i⟩ ∈ (d.construct p).children

theorem walking_start (d : Draft) (root : NodeId) :
    Walking d root [] [root] (Array.replicate d.nodes.size none) where
  visiting := ⟨by simp, .inr (by simp), by simp [Array.getElem?_replicate], nofun, nofun, nofun⟩
  nodup := by simp
  reaches id hid := by
    obtain rfl : id = root := by simpa using hid
    exact .root
  found id hid hne := absurd (by simpa using hid) hne
  claimed i p hp := by simp [Array.getElem?_replicate] at hp

/-- The nodes met after a visit are the children and those met before it. -/
theorem visit_perm : (parent :: visited ++ (children.reverse ++ stack)).Perm
    (children ++ (visited ++ parent :: stack)) := by
  refine List.perm_iff_count.2 fun id => ?_
  simp only [List.cons_append, List.count_cons, List.count_append, List.count_reverse]
  omega

theorem Walking.next (h : Walking d root visited (parent :: stack) parents)
    (hclaim : claim root parent (d.construct parent).children parents = .ok parents') :
    Walking d root (parent :: visited) ((d.construct parent).children.reverse ++ stack) parents' := by
  have hc := claim_ok hclaim
  have hnew : ∀ c ∈ (d.construct parent).children, c ∉ visited ++ parent :: stack := by
    intro c hcc hmem
    by_cases hroot : c = root
    · subst hroot
      refine h.visiting.root parent ?_
      rw [← hc.root]
      exact hc.children c hcc
    · obtain ⟨p, hp⟩ := h.found c hmem hroot
      rw [hc.free c hcc] at hp
      cases hp
  refine ⟨h.visiting.next hc, ?_, fun id hid => ?_, fun id hid hne => ?_, fun i p hp => ?_⟩
  · rw [visit_perm.nodup_iff, List.nodup_append']
    exact ⟨hc.nodup, h.nodup, fun c hcc hmem => hnew c hcc hmem⟩
  · rcases List.mem_append.1 (visit_perm.mem_iff.1 hid) with hid | hid
    · exact .child (h.reaches parent (by simp)) hid
    · exact h.reaches id hid
  · rcases List.mem_append.1 (visit_perm.mem_iff.1 hid) with hid | hid
    · exact ⟨parent, hc.children id hid⟩
    · obtain ⟨p, hp⟩ := h.found id hid hne
      exact ⟨p, hc.kept _ _ hp⟩
  · rcases parent_of_claim hclaim hp with ⟨rfl, hm⟩ | hp
    · exact ⟨List.mem_cons_self, hm⟩
    · exact (h.claimed i p hp).imp_left (List.mem_cons_of_mem _)

/-- A visit that fails has met nodes that cannot be in a tree together. -/
theorem Walking.breach (h : Walking d root visited (parent :: stack) parents)
    (hclaim : claim root parent (d.construct parent).children parents = .error e) :
    d.Breach root e := by
  have hparent : d.Reaches root parent := h.reaches parent (by simp)
  cases refusal_of_claim hclaim with
  | missing hm hmissing => exact .missingChild hparent hm (h.visiting.size ▸ hmissing)
  | root hm => exact .rootChild hparent hm
  | twice hcount => exact .twice hparent hcount
  | @taken child first hm htaken =>
    obtain ⟨hvisited, hmem⟩ := h.claimed _ _ htaken
    refine .twoParents ?_ (h.reaches first (by simp [hvisited])) hmem hparent hm
    rintro rfl
    exact (List.disjoint_of_nodup_append h.nodup) hvisited List.mem_cons_self

/-! ## Finishing -/

/-- What the visits end with. -/
def Walked (d : Draft) (root : NodeId) : Except TreeError (Array (Option NodeId)) → Prop
  | .ok parents => ∃ visited, Walking d root visited [] parents
  | .error e => d.Breach root e

theorem Walk.walked {result : Except TreeError (Array (Option NodeId))}
    (w : d.Walk root stack parents result) (h : Walking d root visited stack parents) :
    d.Walked root result := by
  induction w generalizing visited with
  | done parents => exact ⟨visited, h⟩
  | fails hclaim => exact h.breach hclaim
  | visits hclaim _ ih => exact ih (h.next hclaim)

/-- The visits of `finish` end on every draft. -/
theorem walk_finish (d : Draft) (root : NodeId) :
    d.Walk root [root] (Array.replicate d.nodes.size none)
      (d.parentsFrom root (d.nodes.size + 1) [root] (Array.replicate d.nodes.size none)) := by
  refine walk_parentsFrom ?_
  simp [orphans, List.countP_replicate]
  omega

/-- Once all that was met is visited, a node is visited just when the root reaches it. -/
theorem Walking.mem_iff (h : Walking d root visited [] parents) {id : NodeId} :
    id ∈ visited ↔ d.Reaches root id := by
  refine ⟨fun hid => h.reaches id (by simpa using hid), fun hid => ?_⟩
  induction hid with
  | root => exact h.visiting.root_mem.resolve_right (by simp)
  | child _ hc ih => exact (h.visiting.closed _ ih _ hc).resolve_right (by simp)

theorem Walking.parent_iff (h : Walking d root visited [] parents) {p c : NodeId} :
    parents[c.index]? = some (some p) ↔ d.Reaches root p ∧ c ∈ (d.construct p).children := by
  rw [← h.mem_iff]
  exact ⟨fun hp => h.claimed _ _ hp, fun hp => h.visiting.children p hp.1 c hp.2⟩

theorem Walking.isTreeAt (h : Walking d root visited [] parents) {block : NodeId}
    (hroot : d.construct root = .program block) : d.IsTreeAt root where
  program := by
    refine ⟨Nat.lt_of_not_le fun hle => ?_, block, hroot⟩
    rw [construct, Array.getElem?_eq_none hle] at hroot
    cases hroot
  stored p c hp hc := by
    obtain ⟨hlt, -⟩ := Array.getElem?_eq_some_iff.1 (h.parent_iff.2 ⟨hp, hc⟩)
    rwa [h.visiting.size] at hlt
  nodup p hp := h.visiting.nodup p (h.mem_iff.2 hp)
  unique p q c hp hq hpc hqc := by
    have hpq := (h.parent_iff.2 ⟨hp, hpc⟩).symm.trans (h.parent_iff.2 ⟨hq, hqc⟩)
    cases hpq
    rfl
  root_free p hp hc := h.visiting.root p (h.parent_iff.2 ⟨hp, hc⟩)

/-- What a finished tree says of parents. -/
structure Finished (d : Draft) (root : NodeId) (t : Tree) : Prop where
  nodes : t.nodes = d.nodes
  root_eq : t.root = root
  parent_iff : ∀ p c, t.parent? c = some p ↔ d.Reaches root p ∧ c ∈ (d.construct p).children
  parent_root : t.parent? root = none
  parent_unreached : ∀ id, ¬ d.Reaches root id → t.parent? id = none

theorem Finished.construct_eq {t : Tree} (hf : d.Finished root t) (id : NodeId) :
    t.construct id = d.construct id := by
  obtain ⟨nodes, parents, top⟩ := t
  obtain rfl : nodes = d.nodes := hf.nodes
  rfl

theorem Finished.reaches_iff {t : Tree} (hf : d.Finished root t) {id : NodeId} :
    t.Reaches id ↔ d.Reaches root id := by
  constructor
  · rintro ⟨n, hn⟩
    induction hn with
    | root => exact hf.root_eq ▸ .root
    | @child n parent child _ hc ih =>
      rw [Tree.children, hf.construct_eq] at hc
      exact ih.child hc
  · intro h
    induction h with
    | root => exact ⟨0, hf.root_eq ▸ .root⟩
    | @child parent child _ hc ih =>
      refine ih.child ?_
      rw [Tree.children, hf.construct_eq]
      exact hc

theorem Walking.finished (h : Walking d root visited [] parents) :
    d.Finished root ⟨d.nodes, parents, root⟩ := by
  have hjoin : ∀ p c, (Tree.mk d.nodes parents root).parent? c = some p ↔
      d.Reaches root p ∧ c ∈ (d.construct p).children := by
    intro p c
    rw [← h.parent_iff]
    exact Option.join_eq_some_iff
  refine ⟨rfl, rfl, hjoin, ?_, fun id hid => ?_⟩
  · refine Option.eq_none_iff_forall_ne_some.2 fun p hp => h.visiting.root p ?_
    exact h.parent_iff.2 ((hjoin p root).1 hp)
  · refine Option.eq_none_iff_forall_ne_some.2 fun p hp => hid ?_
    obtain ⟨hr, hc⟩ := (hjoin p id).1 hp
    exact .child hr hc

/-- `finish` is what the visits end with, if the root is a program. -/
theorem finish_eq {block : NodeId} (hroot : d.construct root = .program block) :
    d.finish root =
      (d.parentsFrom root (d.nodes.size + 1) [root] (Array.replicate d.nodes.size none)).map
        fun parents => ⟨d.nodes, parents, root⟩ := by
  rw [finish, hroot]
  dsimp only
  split <;> rename_i h <;> rw [h] <;> rfl

theorem finish_ok {t : Tree} (h : d.finish root = .ok t) :
    d.IsTreeAt root ∧ d.Finished root t := by
  obtain ⟨block, hroot⟩ := (finish_visited h).1
  rw [finish_eq hroot] at h
  have hwalked := (walk_finish d root).walked (walking_start d root)
  cases hresult : d.parentsFrom root (d.nodes.size + 1) [root] (Array.replicate d.nodes.size none)
  · rw [hresult] at h
    cases h
  · rw [hresult] at h hwalked
    cases h
    obtain ⟨visited, hw⟩ := hwalked
    exact ⟨hw.isTreeAt hroot, hw.finished⟩

theorem finish_error (h : d.finish root = .error e) : d.Breach root e := by
  by_cases hprogram : ∃ block, d.construct root = .program block
  · obtain ⟨block, hroot⟩ := hprogram
    rw [finish_eq hroot] at h
    have hwalked := (walk_finish d root).walked (walking_start d root)
    cases hresult : d.parentsFrom root (d.nodes.size + 1) [root]
      (Array.replicate d.nodes.size none)
    · rw [hresult] at h hwalked
      cases h
      exact hwalked
    · rw [hresult] at h
      cases h
  · have hne : ∀ block, d.construct root ≠ .program block := fun block hb => hprogram ⟨block, hb⟩
    rw [finish] at h
    split at h
    · exact absurd ‹_› (hne _)
    · cases h
      exact .rootNotProgram hne

/-- The visits end, whatever the children refer to. A draft can be finished just when the root is a
program and what it reaches is a tree; then the parents are those of the nodes that the root
reaches. Otherwise the error names a parent and a child that break this. -/
theorem finish_accepts (d : Draft) (root : NodeId) :
    (∃ result, d.Walk root [root] (Array.replicate d.nodes.size none) result ∧
      ∀ block, d.construct root = .program block →
        d.finish root = result.map fun parents => ⟨d.nodes, parents, root⟩) ∧
    ((∃ t, d.finish root = .ok t) ↔ d.IsTreeAt root) ∧
    (∀ t, d.finish root = .ok t → d.Finished root t) ∧
    ∀ e, d.finish root = .error e → d.Breach root e := by
  refine ⟨⟨_, walk_finish d root, fun block hroot => finish_eq hroot⟩, ⟨?_, fun htree => ?_⟩,
    fun t h => (finish_ok h).2, fun e h => finish_error h⟩
  · rintro ⟨t, h⟩
    exact (finish_ok h).1
  · cases h : d.finish root with
    | ok t => exact ⟨t, rfl⟩
    | error e => exact absurd htree (finish_error h).not_isTreeAt

/-- A block with one literal. -/
def oneLiteral : Draft :=
  ⟨#[⟨.boolean true, .zero⟩, ⟨.block [⟨0⟩], .zero⟩, ⟨.program ⟨1⟩, .zero⟩]⟩

/-- A block that is a child of itself. -/
def ownChild : Draft := ⟨#[⟨.block [⟨0⟩], .zero⟩, ⟨.program ⟨0⟩, .zero⟩]⟩

theorem finish_accepts_literal :
    oneLiteral.IsTreeAt ⟨2⟩ ∧ ¬ ownChild.IsTreeAt ⟨1⟩ ∧
      ownChild.Breach ⟨1⟩ (.sharedChild ⟨0⟩ ⟨1⟩ ⟨0⟩) := by
  have h := finish_accepts ownChild ⟨1⟩
  refine ⟨(finish_accepts oneLiteral ⟨2⟩).2.1.1 ⟨_, rfl⟩, fun htree => ?_, h.2.2.2 _ (by rfl)⟩
  obtain ⟨t, ht⟩ := h.2.1.2 htree
  cases ht

end ReactiveLang.Draft
