import Mathlib.Data.List.Forall2
import ReactiveLang.Proofs.Analysis.Narrowing
import ReactiveLang.Proofs.Eval.Heights

/-!
# Which way control has come

`Tree.Stands` says how many values a node's code has left at each of its places. `Tree.Trail` also
says what type tests tell of these values, if `made` are the tests that were made and what they were
made of: a value that connects tests has come out as they tell, and in a branch of a conditional the
condition has come out for the branch.

* `Tree.Acts`: what a step takes and leaves, and where it goes on, as tests tell.
* `Trail.leads`: such a step goes on along a trail, and tests tell of every condition that the step's
  own node is guarded by.
-/

namespace ReactiveLang.Tree

variable (t : Tree) (made : NodeId → Value → Prop)

/-- The value of the node is as type tests tell, if its outcome follows from tests. -/
def Answers (node : NodeId) (v : Value) : Prop :=
  t.isLogical node = true → ∃ b, v = .boolean b ∧ t.Tells made node b

/-- Before a part of a node's code these values are there that the code has left, newest first. -/
structure Before (node : NodeId) (k : Nat) (values : List Value) : Prop where
  height : values.length = t.heightAt node k
  operands : t.isLogical node = true →
    List.Forall₂ (t.Answers made) ((t.children node).take k) values.reverse
  /-- The condition of a conditional has its value, and then has come out for a branch. -/
  chosen : ∀ condition yes no, t.construct node = .conditional condition yes no →
    (k = 1 → ∀ v ∈ values, t.Answers made condition v) ∧ (k = 2 → t.Tells made condition true) ∧
      (k = 4 → t.Tells made condition false)

/-- Before step number `i` of a node's code these values are there that the code has left, newest
first. -/
inductive Trail : NodeId → Nat → List Value → Prop where
  | start (node : NodeId) : Trail node 0 []
  | own {node : NodeId} {k : Nat} {step : Step} {height : Nat} {values : List Value}
      (part : (t.parts node)[k]? = some (.own step, height)) (before : t.Before made node k values) :
      Trail node (t.offset node k) values
  | child {node : NodeId} {k : Nat} {child : NodeId} {base i : Nat} {values below : List Value}
      (part : (t.parts node)[k]? = some (.child child, base)) (before : t.Before made node k below)
      (inside : Trail child i values) : Trail node (t.offset node k + i) (values ++ below)
  | finish {node : NodeId} {values : List Value}
      (before : t.Before made node (t.parts node).length values) :
      Trail node (t.offset node (t.parts node).length) values

/-- Somewhere in a node's code, or at its end with the node's value. -/
def Follows (node : NodeId) (i : Nat) (values : List Value) : Prop :=
  t.Trail made node i values ∨
    i = (t.code node).length ∧ ∃ v, values = [v] ∧ t.Answers made node v

/-- A step goes so many steps on, takes these values, newest first, and leaves others. -/
inductive Acts : Step → Nat → List Value → List Value → Prop where
  | start (node : NodeId) : Acts (.start node) 1 [] []
  | reuse {node : NodeId} {v : Value} (answers : t.Answers made node v) :
      Acts (.start node) (t.code node).length [] [v]
  | check (node : NodeId) : Acts (.check node) 1 [] []
  | recheck {node initial condition next : NodeId}
      (construct : t.construct node = .reaction initial condition next) :
      Acts (.check node) (1 + ((t.code initial).length + 1)) [] []
  | jump (node : NodeId) (count : Nat) : Acts (.jump node count) (1 + count) [] []
  | stay {node : NodeId} {count : Nat} {when : Bool} {v : Value}
      (tells : ∀ condition yes no, t.construct node = .conditional condition yes no →
        t.Answers made condition v → t.Tells made condition (!when)) :
      Acts (.jumpIf node count when) 1 [v] []
  | branch {node : NodeId} {count : Nat} {when : Bool} {v : Value} {left : List Value}
      (leaves : left.length = if Machine.isReaction t node then 1 else 0)
      (tells : ∀ condition yes no, t.construct node = .conditional condition yes no →
        t.Answers made condition v → t.Tells made condition when) :
      Acts (.jumpIf node count when) (1 + count) [v] left
  | keep {node : NodeId} (construct : (∃ block, t.construct node = .program block) ∨
        ∃ condition yes no, t.construct node = .conditional condition yes no) :
      Acts (.finish node) 1 [] []
  | finish {node : NodeId} {operands : List Value} {v : Value}
      (program : ∀ block, t.construct node ≠ .program block)
      (conditional : ∀ condition yes no, t.construct node ≠ .conditional condition yes no)
      (count : operands.length = (t.construct node).operandCount)
      (answers : t.Answers made node v) : Acts (.finish node) 1 operands [v]

variable {t made} {node : NodeId} {values operands left : List Value} {step : Step} {skip : Nat}

theorem Answers.mono {made' : NodeId → Value → Prop} {v : Value} (h : t.Answers made node v)
    (himp : ∀ test u, t.RestsOn node test → made test u → made' test u) : t.Answers made' node v := by
  intro hl
  obtain ⟨b, hb, htells⟩ := h hl
  exact ⟨b, hb, htells.mono himp⟩

theorem Acts.moves (h : t.Acts made step skip operands left) :
    t.Moves step skip operands.length left.length := by
  cases h with
  | start => exact .start _
  | reuse => exact .reuse _
  | check => exact .check _
  | recheck hc => exact .recheck hc
  | jump => exact .jump _ _
  | stay => exact .stay _ _ _
  | branch hl => rw [hl]; exact .branch _ _ _
  | keep hc => exact .keep hc
  | finish hp hc hn => rw [hn]; exact .finish hp hc

/-! ## Before the parts -/

/-- A node whose outcome follows from tests takes the values of its children, one after the other. -/
theorem parts_of_isLogical (h : t.isLogical node = true) :
    t.parts node = (t.children node).mapIdx (fun i child => (.child child, i)) ∧
      (t.construct node).operandCount = (t.children node).length ∧
      (∀ block, t.construct node ≠ .program block) ∧
        ∀ condition yes no, t.construct node ≠ .conditional condition yes no := by
  unfold isLogical at h
  unfold parts children
  split at h
  · rename_i hc
    rw [hc]
    exact ⟨rfl, rfl, nofun, nofun⟩
  · rename_i hc
    rw [hc]
    exact ⟨rfl, rfl, nofun, nofun⟩
  · rename_i hc
    rw [hc]
    exact ⟨rfl, rfl, nofun, nofun⟩
  · rename_i hc
    rw [hc]
    exact ⟨rfl, rfl, nofun, nofun⟩
  · cases h

theorem before_zero (t : Tree) (made : NodeId → Value → Prop) (node : NodeId) :
    t.Before made node 0 [] :=
  ⟨(t.heightAt_zero node).symm, fun _ => .nil, fun _ _ _ _ => ⟨nofun, nofun, nofun⟩⟩

/-- A child leaves its value. -/
theorem Before.child {k : Nat} {child : NodeId} {base : Nat} {v : Value}
    (hp : (t.parts node)[k]? = some (.child child, base)) (h : t.Before made node k values)
    (hv : t.Answers made child v) : t.Before made node (k + 1) (v :: values) := by
  refine ⟨?_, fun hl => ?_, fun condition yes no hc => ⟨fun hk u hu => ?_, fun hk => ?_, fun hk => ?_⟩⟩
  · rw [heightAt_succ hp, List.length_cons, h.height, heightAt_of_part hp]
  · obtain ⟨hparts, -⟩ := parts_of_isLogical hl
    rw [hparts, List.getElem?_mapIdx] at hp
    obtain ⟨c, hc, heq⟩ := Option.map_eq_some_iff.1 hp
    cases heq
    rw [List.take_add_one, hc, List.reverse_cons]
    exact List.rel_append (h.operands hl) (.cons hv .nil)
  all_goals
    unfold parts at hp
    rw [hc] at hp
    have hk' := Nat.succ.inj hk
    subst hk'
    cases hp
  -- the first part is the condition, and the second and the fourth are no children
  have hnil : values = [] := List.eq_nil_of_length_eq_zero (h.height.trans (t.heightAt_zero node))
  rw [hnil, List.mem_singleton] at hu
  exact hu ▸ hv

/-- At the beginning of a part, or of the finish. -/
theorem trail_offset {k : Nat} (hk : k ≤ (t.parts node).length) (h : t.Before made node k values) :
    t.Trail made node (t.offset node k) values := by
  rcases Nat.lt_or_ge k (t.parts node).length with hlt | hge
  · obtain ⟨⟨part, base⟩, hp⟩ : ∃ p, (t.parts node)[k]? = some p :=
      ⟨_, List.getElem?_eq_getElem hlt⟩
    cases part with
    | child c => exact Trail.child hp h (.start c)
    | own step => exact .own hp h
  · obtain rfl : k = (t.parts node).length := Nat.le_antisymm hk hge
    exact .finish h

/-- Past a child, the trail goes on with what comes after it. -/
theorem Follows.child {k : Nat} {child : NodeId} {base i : Nat} {below : List Value}
    (hp : (t.parts node)[k]? = some (.child child, base)) (hb : t.Before made node k below)
    (h : t.Follows made child i values) :
    t.Trail made node (t.offset node k + i) (values ++ below) := by
  rcases h with h | ⟨rfl, v, rfl, hv⟩
  · exact .child hp hb h
  · have ht := trail_offset (List.getElem?_eq_some_iff.1 hp).1 (hb.child hp hv)
    rwa [offset_succ hp] at ht

/-! ## Where the steps lead -/

/-- The values that a step of the node's own leaves are as many as the next part expects. -/
theorem Before.length_left {k next : Nat} {height : Nat} {rest : List Value}
    (hp : (t.parts node)[k]? = some (.own step, height))
    (h : t.Before made node k (operands ++ rest))
    (hnext : t.heightAt node next = height - operands.length + left.length) :
    (left ++ rest).length = t.heightAt node next := by
  have hlen := h.height
  rw [heightAt_of_part hp, List.length_append] at hlen
  rw [hnext, List.length_append]
  omega

/-- A conditional goes on with the branch for which its condition has come out, and from the first
branch to its finish. -/
theorem Before.choice {k : Nat} {height : Nat} {rest : List Value} {condition yes no : NodeId}
    (hnode : t.construct node = .conditional condition yes no)
    (hp : (t.parts node)[k]? = some (.own step, height))
    (h : t.Before made node k (operands ++ rest)) (ha : t.Acts made step skip operands left) :
    ∃ next ≤ (t.parts node).length, t.offset node next = t.offset node k + skip ∧
      t.Before made node next (left ++ rest) := by
  have hplain : t.isLogical node = true → False := fun hl => by simp [isLogical, hnode] at hl
  have hparts : t.parts node = [(.child condition, 0),
      (.own (.jumpIf node ((t.code yes).length + 1) false), 1), (.child yes, 0),
      (.own (.jump node (t.code no).length), 1), (.child no, 0)] := by
    rw [parts, hnode]
  have hchosen : ∀ {next}, (next = 2 → t.Tells made condition true) →
      (next = 4 → t.Tells made condition false) → next ≠ 1 →
      ∀ c y n, t.construct node = .conditional c y n →
        (next = 1 → ∀ v ∈ left ++ rest, t.Answers made c v) ∧ (next = 2 → t.Tells made c true) ∧
          (next = 4 → t.Tells made c false) := by
    intro next h2 h4 h1 c y n hc
    rw [hnode] at hc
    cases hc
    exact ⟨fun h => absurd h h1, h2, h4⟩
  have hlength : ∀ {next}, t.heightAt node next = height - operands.length + left.length →
      (left ++ rest).length = t.heightAt node next := fun hnext => h.length_left hp hnext
  have hsize : (t.parts node).length = 5 := by rw [hparts]; rfl
  rw [hparts] at hp
  obtain rfl | rfl : k = 1 ∨ k = 3 := by
    rcases k with _ | _ | _ | _ | _ | k <;> first | cases hp; done | simp
  · cases hp
    obtain ⟨hcondition, -⟩ := h.chosen _ _ _ hnode
    cases ha with
    | @stay _ _ _ v tells =>
      have htells := tells _ _ _ hnode (hcondition rfl v (by simp))
      refine ⟨2, by omega, by simp [offset, hparts, codeOfParts, codeOf]; omega, ?_,
        fun hl => (hplain hl).elim, hchosen (fun _ => htells) (by simp) (by simp)⟩
      exact hlength (by simp [heightAt, hparts])
    | @branch _ _ _ v left leaves tells =>
      have htells := tells _ _ _ hnode (hcondition rfl v (by simp))
      refine ⟨4, by omega, by simp [offset, hparts, codeOfParts, codeOf]; omega, ?_,
        fun hl => (hplain hl).elim, hchosen (by simp) (fun _ => htells) (by simp)⟩
      refine hlength ?_
      rw [leaves]
      simp [heightAt, hparts, Machine.isReaction, hnode]
  · cases hp
    cases ha
    refine ⟨5, by omega, by simp [offset, hparts, codeOfParts, codeOf]; omega, ?_,
      fun hl => (hplain hl).elim, hchosen (by simp) (by simp) (by simp)⟩
    exact hlength (by simp [heightAt, hparts, hnode, Construct.valueCount])

/-- A choice leads to the beginning of another part. -/
theorem Before.own {k : Nat} {height : Nat} {rest : List Value}
    (hp : (t.parts node)[k]? = some (.own step, height))
    (h : t.Before made node k (operands ++ rest)) (ha : t.Acts made step skip operands left) :
    ∃ next ≤ (t.parts node).length, t.offset node next = t.offset node k + skip ∧
      t.Before made node next (left ++ rest) := by
  obtain ⟨children, hparts, -⟩ | ⟨condition, yes, no, hnode⟩ |
    ⟨initial, condition, next, hnode⟩ := t.parts_cases node
  · rw [hparts, List.getElem?_mapIdx] at hp
    obtain ⟨c, -, heq⟩ := Option.map_eq_some_iff.1 hp
    cases heq
  · exact h.choice hnode hp ha
  · obtain ⟨-, hmoves⟩ := own_moves hp
    obtain ⟨-, place, hplace, hoffset, hnext⟩ := hmoves ha.moves
    refine ⟨place, hplace, hoffset, h.length_left hp hnext, fun hl => ?_, fun c y n hc => ?_⟩
    · simp [isLogical, hnode] at hl
    · rw [hnode] at hc
      cases hc

/-- The finish of a node leaves the node's value. -/
theorem Before.finish {rest : List Value}
    (h : t.Before made node (t.parts node).length (operands ++ rest))
    (ha : t.Acts made (.finish node) skip operands left) :
    skip = 1 ∧ ∃ v, left ++ rest = [v] ∧ t.Answers made node v := by
  have hheight : (operands ++ rest).length = (t.construct node).valueCount := by
    rw [h.height, heightAt, List.getElem?_eq_none (Nat.le_refl _)]
    rfl
  obtain ⟨rfl, htakes, hleaves⟩ := finish_moves ha.moves
  obtain ⟨v, hv⟩ : ∃ v, left ++ rest = [v] := by
    refine List.length_eq_one_iff.1 ?_
    rw [List.length_append] at hheight ⊢
    omega
  refine ⟨rfl, v, hv, ?_⟩
  cases ha with
  | keep hc =>
    intro hl
    obtain ⟨-, -, hprogram, hconditional⟩ := parts_of_isLogical hl
    obtain ⟨block, hb⟩ | ⟨condition, yes, no, hb⟩ := hc
    · exact absurd hb (hprogram block)
    · exact absurd hb (hconditional condition yes no)
  | finish _ _ _ hanswers =>
    cases hv
    exact hanswers

/-- From a place of a trail: the next step has the values that it takes, tests tell of the
conditions around it, and it goes on along the trail. -/
structure Follow (t : Tree) (made : NodeId → Value → Prop) (code : List Step)
    (guarded : NodeId → Bool → Prop) (places : Nat → List Value → Prop) (i : Nat)
    (values : List Value) (step : Step) : Prop where
  there : code[i]? = some step
  reaches : t.Reaches step.node
  tells : ∀ condition truth, t.Guarded condition truth step.node →
    t.Tells made condition truth ∨ guarded condition truth
  takes : ∀ {skip takes leaves : Nat}, t.Moves step skip takes leaves → takes ≤ values.length
  operands : step = .finish step.node → t.isLogical step.node = true →
    ∃ operands rest, values = operands ++ rest ∧
      List.Forall₂ (t.Answers made) (t.children step.node) operands.reverse
  acts : ∀ {skip operands left rest}, t.Acts made step skip operands left →
    values = operands ++ rest → places (i + skip) (left ++ rest)

/-- The same for code that has more code around it, and values below. -/
theorem Follow.around {part code : List Step} {guarded guarded' : NodeId → Bool → Prop}
    {places places' : Nat → List Value → Prop} {base i : Nat} {below : List Value}
    (h : t.Follow made part guarded places i values step) (hpart : part <+: code.drop base)
    (hguarded : ∀ condition truth, guarded condition truth →
      t.Tells made condition truth ∨ guarded' condition truth)
    (hplaces : ∀ i values, places i values → places' (base + i) (values ++ below)) :
    t.Follow made code guarded' places' (base + i) (values ++ below) step := by
  refine ⟨getElem?_inside hpart h.there, h.reaches, fun condition truth hg => ?_, fun hm => ?_,
    fun hs hl => ?_, fun {skip operands left rest} ha hrest => ?_⟩
  · exact (h.tells condition truth hg).elim .inl (hguarded condition truth)
  · exact Nat.le_trans (h.takes hm) (by simp)
  · obtain ⟨operands, rest, hv, hoperands⟩ := h.operands hs hl
    exact ⟨operands, rest ++ below, by rw [hv, List.append_assoc], hoperands⟩
  · have htakes := h.takes ha.moves
    obtain ⟨own, rfl, rfl⟩ : ∃ own, values = operands ++ own ∧ rest = own ++ below := by
      rcases List.append_eq_append_iff.1 hrest with ⟨own, hown, hbelow⟩ | ⟨own, hown, hbelow⟩
      · -- no value is taken from below
        have hlen := congrArg List.length hown
        rw [List.length_append] at hlen
        obtain rfl : own = [] := List.eq_nil_of_length_eq_zero (by omega)
        exact ⟨[], by simpa using hown.symm, by simpa using hbelow.symm⟩
      · exact ⟨own, hown, hbelow⟩
    rw [Nat.add_assoc, ← List.append_assoc]
    exact hplaces _ _ (h.acts ha rfl)

/-- A child is guarded by what its parent is guarded by, and by the condition that has been chosen
for it. -/
theorem Before.guards (w : t.WellFormed) (hr : t.Reaches node) (hn : (t.children node).Nodup)
    {k : Nat} {child : NodeId} {base : Nat} {condition : NodeId} {truth : Bool}
    (hp : (t.parts node)[k]? = some (.child child, base)) (h : t.Before made node k values)
    (hg : t.Guarded condition truth child) :
    t.Tells made condition truth ∨ t.Guarded condition truth node := by
  have hparent := w.parent_child _ _ hr (mem_children_of_part hp)
  have hparts : ∀ {condition yes no}, t.construct node = .conditional condition yes no →
      (condition ≠ yes ∧ condition ≠ no ∧ yes ≠ no) ∧ (k = 0 ∧ child = condition ∨
        k = 2 ∧ child = yes ∨ k = 4 ∧ child = no) := by
    intro condition yes no hc
    have hdiffer : [condition, yes, no].Nodup := by
      rw [children, hc] at hn
      exact hn
    refine ⟨by simpa [and_assoc] using hdiffer, ?_⟩
    rw [parts, hc] at hp
    rcases k with _ | _ | _ | _ | _ | k <;> cases hp <;> simp
  cases hg with
  | yes hchild hc =>
    rw [hparent] at hchild
    cases hchild
    obtain ⟨⟨h1, h2, h3⟩, ⟨-, heq⟩ | ⟨hk, -⟩ | ⟨-, heq⟩⟩ := hparts hc
    · exact absurd heq.symm h1
    · exact .inl ((h.chosen _ _ _ hc).2.1 hk)
    · exact absurd heq h3
  | no hchild hc =>
    rw [hparent] at hchild
    cases hchild
    obtain ⟨⟨h1, h2, h3⟩, ⟨-, heq⟩ | ⟨-, heq⟩ | ⟨hk, -⟩⟩ := hparts hc
    · exact absurd heq.symm h2
    · exact absurd heq.symm h3
    · exact .inl ((h.chosen _ _ _ hc).2.2 hk)
  | inside hchild _ hg =>
    rw [hparent] at hchild
    cases hchild
    exact .inr hg

section
variable (w : t.WellFormed) (hn : ∀ node, t.Reaches node → (t.children node).Nodup)
include w hn

/-- Each step of a node's code goes on along the trail, or to the end of the code. -/
theorem Trail.leads (hr : t.Reaches node) {i : Nat} (h : t.Trail made node i values) :
    ∃ step, t.Follow made (t.code node) (fun condition truth => t.Guarded condition truth node)
      (t.Follows made node) i values step := by
  induction h with
  | start node =>
    refine ⟨.start node, by rw [w.code_parts hr]; rfl, hr, fun _ _ hg => .inr hg, fun hm => ?_, nofun,
      fun ha hrest => ?_⟩
    · cases hm <;> exact Nat.le_refl _
    · cases ha with
      | start =>
        obtain rfl : [] = _ := hrest
        exact .inl (trail_offset (Nat.zero_le _) (t.before_zero made node))
      | reuse hv =>
        obtain rfl : [] = _ := hrest
        exact .inr ⟨Nat.zero_add _, _, rfl, hv⟩
  | @own node k step height values hp hb =>
    obtain ⟨hnode, hmoves⟩ := own_moves hp
    have hstep : (t.code node)[t.offset node k]? = some step :=
      getElem?_inside (j := 0) (w.part_within hr hp) rfl
    refine ⟨step, hstep, hnode ▸ hr, fun _ _ hg => .inr (hnode ▸ hg), fun hm => ?_, fun hs hl => ?_,
      fun ha hrest => ?_⟩
    · rw [hb.height, heightAt_of_part hp]
      exact (hmoves hm).1
    · -- a node with steps of its own makes a choice
      rw [hnode] at hl
      rw [(parts_of_isLogical hl).1, List.getElem?_mapIdx] at hp
      obtain ⟨c, -, heq⟩ := Option.map_eq_some_iff.1 hp
      cases heq
    · subst hrest
      obtain ⟨next, hnext, hoffset, hbefore⟩ := hb.own hp ha
      rw [← hoffset]
      exact .inl (trail_offset hnext hbefore)
  | @child node k child base i values below hp hb _ ih =>
    obtain ⟨step, hstep⟩ := ih (hr.child (mem_children_of_part hp))
    exact ⟨step, hstep.around (w.part_within hr hp) (fun _ _ hg => hb.guards w hr (hn _ hr) hp hg)
      fun _ _ h => .inl (h.child hp hb)⟩
  | @finish node values hb =>
    have hlen := w.length_code hr
    refine ⟨.finish node, w.code_finish hr, hr, fun _ _ hg => .inr hg, fun hm => ?_, fun _ hl => ?_,
      fun ha hrest => ?_⟩
    · rw [hb.height, heightAt, List.getElem?_eq_none (Nat.le_refl _)]
      exact (finish_moves hm).2.1
    · have hl : t.isLogical node = true := hl
      have hoperands := hb.operands hl
      rw [(parts_of_isLogical hl).1, List.length_mapIdx, List.take_length] at hoperands
      exact ⟨values, [], (List.append_nil values).symm, hoperands⟩
    · subst hrest
      obtain ⟨rfl, v, hv, hanswers⟩ := hb.finish ha
      exact .inr ⟨hlen.symm, v, hv, hanswers⟩

end

/-! ## Nodes one after the other -/

/-- In the code of some nodes that are evaluated one after the other, or at its end. -/
inductive TrailIn (t : Tree) (made : NodeId → Value → Prop) (nodes : List NodeId) :
    Nat → List Value → Prop where
  | node {k : Nat} {node : NodeId} {i : Nat} {values below : List Value}
      (there : nodes[k]? = some node) (inside : t.Trail made node i values) :
      TrailIn t made nodes (((nodes.take k).flatMap t.code).length + i) (values ++ below)
  | done (values : List Value) : TrailIn t made nodes (nodes.flatMap t.code).length values

theorem trailIn_begin (t : Tree) (made : NodeId → Value → Prop) (nodes : List NodeId) {k : Nat}
    (hk : k ≤ nodes.length) (values : List Value) :
    t.TrailIn made nodes ((nodes.take k).flatMap t.code).length values := by
  rcases Nat.lt_or_ge k nodes.length with hlt | hge
  · exact .node (List.getElem?_eq_getElem hlt) (.start _)
  · obtain rfl : k = nodes.length := Nat.le_antisymm hk hge
    rw [List.take_length]
    exact .done values

theorem Follows.among {nodes : List NodeId} {k : Nat} {i : Nat} {below : List Value}
    (there : nodes[k]? = some node) (h : t.Follows made node i values) :
    t.TrailIn made nodes (((nodes.take k).flatMap t.code).length + i) (values ++ below) := by
  rcases h with h | ⟨rfl, v, rfl, -⟩
  · exact .node there h
  · have ht := t.trailIn_begin made nodes (List.getElem?_eq_some_iff.1 there).1 ([v] ++ below)
    rwa [Nat.succ_eq_add_one, length_code_take_succ there] at ht

/-- Each step goes on along the trail, and tests tell of every condition around it. -/
theorem TrailIn.leads (w : t.WellFormed) (hn : ∀ node, t.Reaches node → (t.children node).Nodup)
    {nodes : List NodeId} (hr : ∀ node ∈ nodes, t.Reaches node)
    (hfree : ∀ node ∈ nodes, ∀ condition truth, ¬ t.Guarded condition truth node) {i : Nat}
    (h : t.TrailIn made nodes i values) : i = (nodes.flatMap t.code).length ∨
      ∃ step, t.Follow made (nodes.flatMap t.code) (fun _ _ => False) (t.TrailIn made nodes) i values
        step := by
  cases h with
  | done => exact .inl rfl
  | @node k node i values below there inside =>
    have hmem := List.mem_of_getElem? there
    obtain ⟨step, hstep⟩ := inside.leads w hn (hr node hmem)
    refine .inr ⟨step, hstep.around (code_within there) (fun condition truth hg => ?_)
      fun _ _ h => h.among there⟩
    exact absurd hg (hfree node hmem condition truth)

end ReactiveLang.Tree
