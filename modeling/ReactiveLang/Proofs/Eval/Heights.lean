import ReactiveLang.Proofs.Eval.Operands

/-!
# How many values wait

The code of a node is laid out in parts: the code of its children, and the steps that choose between
them. At each place of the code it is known how many values the steps before it have left
(`Tree.Stands`), on every way that leads there.

* `Tree.Moves`: where a step goes on, how many values it takes and how many it leaves.
* `Stands.moves`: the values that a step takes are there, it goes on to a place of the same code with
  the right number of values or to its end with one, and it stays in the code of the node that it
  belongs to.
-/

namespace ReactiveLang

/-- A part of a node's code between its start and its finish. -/
inductive Part where
  | child (node : NodeId)
  | own (step : Step)

namespace Tree

variable (t : Tree)

def codeOf : Part → List Step
  | .child node => t.code node
  | .own step => [step]

/-- The parts of a node's code, each with the number of values that are there when it begins. -/
def parts (node : NodeId) : List (Part × Nat) :=
  match t.construct node with
  | .conditional condition yes no =>
    [(.child condition, 0), (.own (.jumpIf node ((t.code yes).length + 1) false), 1), (.child yes, 0),
      (.own (.jump node (t.code no).length), 1), (.child no, 0)]
  | .reaction initial condition next =>
    [(.own (.check node), 0), (.child initial, 0),
      (.own (.jump node ((t.code condition).length + 1 + (t.code next).length)), 1),
      (.child condition, 0), (.own (.jumpIf node (t.code next).length false), 1), (.child next, 0)]
  | .functionDef _ _ _ _ => []
  | .structureDef _ _ _ => []
  | .conversionDef _ _ _ => []
  | construct => construct.children.mapIdx fun i child => (.child child, i)

def codeOfParts (parts : List (Part × Nat)) : List Step := parts.flatMap fun p => t.codeOf p.1

/-- The number of steps before a part. -/
def offset (node : NodeId) (k : Nat) : Nat := 1 + (t.codeOfParts ((t.parts node).take k)).length

/-- The number of values before a part; after the last one, before the finish. -/
def heightAt (node : NodeId) (k : Nat) : Nat :=
  ((t.parts node)[k]?.map Prod.snd).getD (t.construct node).valueCount

/-- Before step number `i` of a node's code so many values are there that the code has left. -/
inductive Stands : NodeId → Nat → Nat → Prop where
  | start (node : NodeId) : Stands node 0 0
  | own {node : NodeId} {k : Nat} {step : Step} {height : Nat}
      (part : (t.parts node)[k]? = some (.own step, height)) : Stands node (t.offset node k) height
  | child {node : NodeId} {k : Nat} {child : NodeId} {base i height : Nat}
      (part : (t.parts node)[k]? = some (.child child, base)) (inside : Stands child i height) :
      Stands node (t.offset node k + i) (base + height)
  | finish (node : NodeId) :
      Stands node (t.offset node (t.parts node).length) (t.construct node).valueCount

/-- Somewhere in a node's code, or at its end with the node's value. -/
def Passes (node : NodeId) (i height : Nat) : Prop :=
  t.Stands node i height ∨ (i = (t.code node).length ∧ height = 1)

/-- A step can go so many steps on, where it takes so many values and leaves so many. -/
inductive Moves : Step → Nat → Nat → Nat → Prop where
  | start (node : NodeId) : Moves (.start node) 1 0 0
  /-- A value of the pass before takes the place of the node's code. -/
  | reuse (node : NodeId) : Moves (.start node) (t.code node).length 0 1
  | check (node : NodeId) : Moves (.check node) 1 0 0
  /-- The reaction had a value in the pass before. -/
  | recheck {node initial condition next : NodeId}
      (construct : t.construct node = .reaction initial condition next) :
      Moves (.check node) (1 + ((t.code initial).length + 1)) 0 0
  | jump (node : NodeId) (count : Nat) : Moves (.jump node count) (1 + count) 0 0
  | stay (node : NodeId) (count : Nat) (when : Bool) : Moves (.jumpIf node count when) 1 1 0
  | branch (node : NodeId) (count : Nat) (when : Bool) : Moves (.jumpIf node count when) (1 + count) 1
      (if Machine.isReaction t node then 1 else 0)
  /-- The value is there already. -/
  | keep {node : NodeId} (construct : (∃ block, t.construct node = .program block) ∨
        ∃ condition yes no, t.construct node = .conditional condition yes no) :
      Moves (.finish node) 1 0 0
  | finish {node : NodeId} (program : ∀ block, t.construct node ≠ .program block)
      (conditional : ∀ condition yes no, t.construct node ≠ .conditional condition yes no) :
      Moves (.finish node) 1 (t.construct node).operandCount 1

/-- Going so many steps on from step number `i` of some code stays in the code of the node that the
step belongs to; only the finish of a node, and a value that takes the place of its code, go to the
end of that. -/
def Lands (code : List Step) (i : Nat) (step : Step) (skip : Nat) : Prop :=
  ∃ base j, i = base + j ∧ t.code step.node <+: code.drop base ∧
    (j + skip < (t.code step.node).length ∨
      j + skip = (t.code step.node).length ∧
        (step = .finish step.node ∨ step = .start step.node ∧ j = 0))

variable {t}

/-! ## The parts of the code -/

theorem codeOfParts_mapIdx (children : List NodeId) (number : Nat → Nat) :
    t.codeOfParts (children.mapIdx fun i child => (.child child, number i)) =
      children.flatMap t.code := by
  induction children generalizing number with
  | nil => rfl
  | cons child children ih =>
    rw [List.mapIdx_cons, List.flatMap_cons, ← ih fun i => number (i + 1)]
    rfl

theorem codeOfParts_parts (node : NodeId) :
    t.codeOfParts (t.parts node) = t.innerCode t.code node := by
  unfold parts innerCode
  cases t.construct node with
  | conditional | reaction => simp [codeOfParts, codeOf]
  | functionDef | structureDef | conversionDef => rfl
  | _ => exact codeOfParts_mapIdx _ id

theorem WellFormed.code_parts (w : t.WellFormed) {node : NodeId} (h : t.Reaches node) :
    t.code node = .start node :: t.codeOfParts (t.parts node) ++ [.finish node] := by
  rw [codeOfParts_parts, w.code_eq h]

theorem codeOfParts_append (a b : List (Part × Nat)) :
    t.codeOfParts (a ++ b) = t.codeOfParts a ++ t.codeOfParts b := List.flatMap_append

theorem offset_succ {node : NodeId} {k : Nat} {part : Part} {base : Nat}
    (h : (t.parts node)[k]? = some (part, base)) :
    t.offset node (k + 1) = t.offset node k + (t.codeOf part).length := by
  unfold offset
  rw [List.take_add_one, h, codeOfParts_append, List.length_append, ← Nat.add_assoc]
  simp [codeOfParts]

/-- From the beginning of a part, the code goes on with that part and those after it. -/
theorem WellFormed.drop_offset (w : t.WellFormed) {node : NodeId} (h : t.Reaches node) (k : Nat) :
    (t.code node).drop (t.offset node k) =
      t.codeOfParts ((t.parts node).drop k) ++ [.finish node] := by
  have hsplit : t.code node = (.start node :: t.codeOfParts ((t.parts node).take k)) ++
      (t.codeOfParts ((t.parts node).drop k) ++ [.finish node]) := by
    rw [w.code_parts h, ← List.take_append_drop k (t.parts node), codeOfParts_append]
    simp
  rw [hsplit, offset, Nat.add_comm]
  exact List.drop_left

theorem WellFormed.part_within (w : t.WellFormed) {node : NodeId} (h : t.Reaches node) {k : Nat}
    {part : Part} {base : Nat} (hp : (t.parts node)[k]? = some (part, base)) :
    t.codeOf part <+: (t.code node).drop (t.offset node k) := by
  obtain ⟨hlt, hget⟩ := List.getElem?_eq_some_iff.1 hp
  rw [w.drop_offset h, List.drop_eq_getElem_cons hlt, hget]
  refine ⟨t.codeOfParts ((t.parts node).drop (k + 1)) ++ [.finish node], ?_⟩
  rw [← List.append_assoc]
  rfl

theorem WellFormed.length_code (w : t.WellFormed) {node : NodeId} (h : t.Reaches node) :
    (t.code node).length = t.offset node (t.parts node).length + 1 := by
  rw [w.code_parts h, offset, List.take_length]
  simp
  omega

/-- The last step is the finish. -/
theorem WellFormed.code_finish (w : t.WellFormed) {node : NodeId} (h : t.Reaches node) :
    (t.code node)[t.offset node (t.parts node).length]? = some (.finish node) := by
  have hrest := w.drop_offset h (t.parts node).length
  rw [List.drop_length] at hrest
  have hfirst := congrArg (fun steps => steps[0]?) hrest
  simpa [codeOfParts] using hfirst

/-- In the code of some nodes, after that of those before it the code of a node comes next. -/
theorem code_within {nodes : List NodeId} {k : Nat} {node : NodeId} (h : nodes[k]? = some node) :
    t.code node <+: (nodes.flatMap t.code).drop ((nodes.take k).flatMap t.code).length := by
  obtain ⟨hlt, hget⟩ := List.getElem?_eq_some_iff.1 h
  have hsplit : nodes = nodes.take k ++ node :: nodes.drop (k + 1) := by
    rw [← hget, ← List.drop_eq_getElem_cons hlt, List.take_append_drop]
  have hcode : nodes.flatMap t.code = (nodes.take k).flatMap t.code ++
      (t.code node ++ (nodes.drop (k + 1)).flatMap t.code) :=
    (congrArg (List.flatMap t.code) hsplit).trans (by rw [List.flatMap_append, List.flatMap_cons])
  rw [hcode, List.drop_left]
  exact List.prefix_append _ _

/-- The code of so many nodes ends with that of the last one. -/
theorem length_code_take_succ {nodes : List NodeId} {k : Nat} {node : NodeId} (h : nodes[k]? = some node) :
    ((nodes.take (k + 1)).flatMap t.code).length =
      ((nodes.take k).flatMap t.code).length + (t.code node).length := by
  rw [List.take_add_one, h, List.flatMap_append, List.length_append]
  simp

/-- A step in a prefix of what comes next. -/
theorem getElem?_inside {part code : List Step} {base j : Nat} {step : Step}
    (h : part <+: code.drop base) (hs : part[j]? = some step) : code[base + j]? = some step := by
  rw [← List.getElem?_drop]
  obtain ⟨rest, hr⟩ := h
  rw [← hr, List.getElem?_append_left (List.getElem?_eq_some_iff.1 hs).1]
  exact hs

/-! ## The values before each part -/

/-- A node has a choice to make, or it takes the values of some children, one after the other. -/
theorem parts_cases (t : Tree) (node : NodeId) :
    (∃ children : List NodeId, t.parts node = children.mapIdx (fun i child => (.child child, i)) ∧
        (t.construct node).valueCount = children.length) ∨
      (∃ condition yes no, t.construct node = .conditional condition yes no) ∨
      ∃ initial condition next, t.construct node = .reaction initial condition next := by
  unfold parts
  cases t.construct node with
  | conditional condition yes no => exact .inr (.inl ⟨_, _, _, rfl⟩)
  | reaction initial condition next => exact .inr (.inr ⟨_, _, _, rfl⟩)
  | functionDef | structureDef | conversionDef => exact .inl ⟨[], rfl, rfl⟩
  | map entries => exact .inl ⟨_, rfl, (length_entries entries).symm⟩
  | _ => exact .inl ⟨_, rfl, rfl⟩

theorem mem_children_of_part {node : NodeId} {k : Nat} {child : NodeId} {base : Nat}
    (h : (t.parts node)[k]? = some (.child child, base)) : child ∈ t.children node := by
  have hmem := List.mem_of_getElem? h
  unfold parts at hmem
  unfold children
  cases hnode : t.construct node with
  | conditional | reaction =>
    rw [hnode] at hmem
    simp only [List.mem_cons, Prod.mk.injEq, Part.child.injEq, reduceCtorEq, false_and, false_or,
      List.not_mem_nil, or_false] at hmem
    simp only [Construct.children, List.mem_cons, List.not_mem_nil, or_false]
    exact hmem.imp And.left (Or.imp And.left And.left)
  | functionDef | structureDef | conversionDef =>
    rw [hnode] at hmem
    cases hmem
  | _ =>
    rw [hnode] at hmem
    obtain ⟨i, hi, heq⟩ := List.mem_mapIdx.1 hmem
    cases heq
    exact List.getElem_mem hi

theorem heightAt_of_part {node : NodeId} {k : Nat} {part : Part} {base : Nat}
    (h : (t.parts node)[k]? = some (part, base)) : t.heightAt node k = base := by
  rw [heightAt, h]
  rfl

/-- A child leaves one value more. -/
theorem heightAt_succ {node : NodeId} {k : Nat} {child : NodeId} {base : Nat}
    (h : (t.parts node)[k]? = some (.child child, base)) : t.heightAt node (k + 1) = base + 1 := by
  obtain ⟨children, hparts, hcount⟩ | ⟨condition, yes, no, hnode⟩ |
    ⟨initial, condition, next, hnode⟩ := t.parts_cases node
  · rw [hparts, List.getElem?_mapIdx] at h
    obtain ⟨c, hc, heq⟩ := Option.map_eq_some_iff.1 h
    cases heq
    have hk := (List.getElem?_eq_some_iff.1 hc).1
    rw [heightAt, hparts, hcount, List.getElem?_mapIdx]
    rcases Nat.lt_or_ge (k + 1) children.length with hlt | hge
    · rw [List.getElem?_eq_getElem hlt]
      rfl
    · rw [List.getElem?_eq_none hge]
      exact Nat.le_antisymm hge hk
  · unfold heightAt
    unfold parts at h ⊢
    rw [hnode] at h ⊢
    match k, h with
    | 0, h | 2, h | 4, h => cases h; rfl
    | 1, h | 3, h | _ + 5, h => cases h
  · unfold heightAt
    unfold parts at h ⊢
    rw [hnode] at h ⊢
    match k, h with
    | 1, h | 3, h | 5, h => cases h; rfl
    | 0, h | 2, h | 4, h | _ + 6, h => cases h

theorem heightAt_zero (t : Tree) (node : NodeId) : t.heightAt node 0 = 0 := by
  unfold heightAt
  obtain ⟨children, hparts, hcount⟩ | ⟨condition, yes, no, hnode⟩ |
    ⟨initial, condition, next, hnode⟩ := t.parts_cases node
  · rw [hparts, hcount]
    cases children with
    | nil => rfl
    | cons child children => rw [List.mapIdx_cons]; rfl
  · unfold parts
    rw [hnode]
    rfl
  · unfold parts
    rw [hnode]
    rfl

/-- At the beginning of a part, or of the finish. -/
theorem stands_offset {node : NodeId} {k : Nat} (hk : k ≤ (t.parts node).length) :
    t.Stands node (t.offset node k) (t.heightAt node k) := by
  rcases Nat.lt_or_ge k (t.parts node).length with hlt | hge
  · obtain ⟨⟨part, base⟩, hp⟩ : ∃ p, (t.parts node)[k]? = some p :=
      ⟨_, List.getElem?_eq_getElem hlt⟩
    rw [heightAt_of_part hp]
    cases part with
    | child c => simpa using Stands.child hp (.start c)
    | own step => exact .own hp
  · obtain rfl : k = (t.parts node).length := Nat.le_antisymm hk hge
    rw [heightAt, List.getElem?_eq_none (Nat.le_refl _)]
    exact .finish node

/-- Past a child, the code goes on with what comes after it. -/
theorem Passes.child {node : NodeId} {k : Nat} {child : NodeId} {base i height : Nat}
    (hp : (t.parts node)[k]? = some (.child child, base)) (h : t.Passes child i height) :
    t.Stands node (t.offset node k + i) (base + height) := by
  rcases h with h | ⟨rfl, rfl⟩
  · exact .child hp h
  · have hk : k + 1 ≤ (t.parts node).length := (List.getElem?_eq_some_iff.1 hp).1
    have hs := stands_offset hk
    rwa [offset_succ hp, heightAt_succ hp] at hs

/-! ## Where the steps lead -/

/-- A choice leads to the beginning of another part, with the values that are there. -/
theorem own_moves {node : NodeId} {k : Nat} {step : Step} {height : Nat}
    (hp : (t.parts node)[k]? = some (.own step, height)) :
    step.node = node ∧ ∀ {skip takes leaves : Nat}, t.Moves step skip takes leaves →
      takes ≤ height ∧ ∃ next ≤ (t.parts node).length,
        t.offset node next = t.offset node k + skip ∧
          t.heightAt node next = height - takes + leaves := by
  obtain ⟨children, hparts, -⟩ | ⟨condition, yes, no, hnode⟩ |
    ⟨initial, condition, next, hnode⟩ := t.parts_cases node
  · rw [hparts, List.getElem?_mapIdx] at hp
    obtain ⟨c, -, heq⟩ := Option.map_eq_some_iff.1 hp
    cases heq
  · unfold offset heightAt
    unfold parts at hp ⊢
    rw [hnode] at hp ⊢
    -- the other parts are children
    obtain rfl | rfl : k = 1 ∨ k = 3 := by
      rcases k with _ | _ | _ | _ | _ | k <;> first | cases hp; done | simp
    · cases hp
      refine ⟨rfl, fun h => ?_⟩
      cases h with
      | stay => exact ⟨Nat.le_refl _, 2, by simp, by simp [codeOfParts, codeOf]; omega, rfl⟩
      | branch =>
        refine ⟨Nat.le_refl _, 4, by simp, by simp [codeOfParts, codeOf]; omega, ?_⟩
        simp [Machine.isReaction, hnode]
    · cases hp
      refine ⟨rfl, fun h => ?_⟩
      cases h
      exact ⟨Nat.zero_le _, 5, by simp, by simp [codeOfParts, codeOf]; omega, rfl⟩
  · unfold offset heightAt
    unfold parts at hp ⊢
    rw [hnode] at hp ⊢
    obtain rfl | rfl | rfl : k = 0 ∨ k = 2 ∨ k = 4 := by
      rcases k with _ | _ | _ | _ | _ | _ | k <;> first | cases hp; done | simp
    · cases hp
      refine ⟨rfl, fun h => ?_⟩
      cases h with
      | check => exact ⟨Nat.zero_le _, 1, by simp, by simp [codeOfParts, codeOf], rfl⟩
      | recheck hr =>
        rw [hnode] at hr
        cases hr
        exact ⟨Nat.zero_le _, 3, by simp, by simp [codeOfParts, codeOf]; omega, rfl⟩
    · cases hp
      refine ⟨rfl, fun h => ?_⟩
      cases h
      exact ⟨Nat.zero_le _, 6, by simp, by simp [codeOfParts, codeOf]; omega, rfl⟩
    · cases hp
      refine ⟨rfl, fun h => ?_⟩
      cases h with
      | stay => exact ⟨Nat.le_refl _, 5, by simp, by simp [codeOfParts, codeOf]; omega, rfl⟩
      | branch =>
        refine ⟨Nat.le_refl _, 6, by simp, by simp [codeOfParts, codeOf]; omega, ?_⟩
        simp [Machine.isReaction, hnode, Construct.valueCount, Construct.operandCount]

theorem offset_le (t : Tree) (node : NodeId) {k n : Nat} (hk : k ≤ n) : t.offset node k ≤ t.offset node n := by
  obtain ⟨rest, hrest⟩ := List.take_prefix_take_left (l := t.parts node) hk
  unfold offset
  rw [← hrest, codeOfParts_append, List.length_append]
  omega

/-- The finish takes one value for each child, or leaves the one that is there. -/
theorem finish_moves {node : NodeId} {skip takes leaves : Nat}
    (h : t.Moves (.finish node) skip takes leaves) :
    skip = 1 ∧ takes ≤ (t.construct node).valueCount ∧
      (t.construct node).valueCount - takes + leaves = 1 := by
  cases h with
  | keep hc =>
    refine ⟨rfl, Nat.zero_le _, ?_⟩
    obtain ⟨block, hb⟩ | ⟨condition, yes, no, hc⟩ := hc
    · rw [hb]
      rfl
    · rw [hc]
      rfl
  | finish hprogram hconditional =>
    have hcount : (t.construct node).valueCount = (t.construct node).operandCount := by
      unfold Construct.valueCount
      split
      · rename_i block hb
        exact absurd hb (hprogram block)
      · rename_i condition yes no hc
        exact absurd hc (hconditional condition yes no)
      · rfl
    rw [hcount]
    exact ⟨rfl, Nat.le_refl _, by omega⟩

/-- A finish takes the operands of its node. -/
theorem exists_moves_finish (t : Tree) (node : NodeId) :
    ∃ leaves, t.Moves (.finish node) 1 (t.construct node).operandCount leaves := by
  by_cases hkeep : (∃ block, t.construct node = .program block) ∨
      ∃ condition yes no, t.construct node = .conditional condition yes no
  · have hzero : (t.construct node).operandCount = 0 := by
      obtain ⟨block, hb⟩ | ⟨condition, yes, no, hb⟩ := hkeep <;> rw [hb] <;> rfl
    rw [hzero]
    exact ⟨0, .keep hkeep⟩
  · exact ⟨1, .finish (fun block hb => hkeep (.inl ⟨block, hb⟩))
      fun condition yes no hb => hkeep (.inr ⟨condition, yes, no, hb⟩)⟩

/-- From a place in some code: the next step is of a node of the tree, the values that it takes are
there, and it leads to a place of the code again. -/
structure Leads (t : Tree) (code : List Step) (places : Nat → Nat → Prop) (i height : Nat)
    (step : Step) : Prop where
  there : code[i]? = some step
  reaches : t.Reaches step.node
  moves : ∀ {skip takes leaves : Nat}, t.Moves step skip takes leaves →
    takes ≤ height ∧ places (i + skip) (height - takes + leaves) ∧ t.Lands code i step skip

/-- The same for code that has more code around it, and values below. -/
theorem Leads.around {part code : List Step} {places places' : Nat → Nat → Prop}
    {base below i height : Nat} {step : Step} (h : t.Leads part places i height step)
    (hpart : part <+: code.drop base)
    (hplaces : ∀ i height, places i height → places' (base + i) (below + height)) :
    t.Leads code places' (base + i) (below + height) step := by
  refine ⟨getElem?_inside hpart h.there, h.reaches, fun hm => ?_⟩
  obtain ⟨htakes, hplace, b, j, rfl, howner, hland⟩ := h.moves hm
  refine ⟨Nat.le_trans htakes (Nat.le_add_left _ _), ?_, base + b, j, (Nat.add_assoc _ _ _).symm, ?_,
    hland⟩
  · rw [Nat.add_assoc, Nat.add_sub_assoc htakes, Nat.add_assoc below]
    exact hplaces _ _ hplace
  · obtain ⟨rest, hrest⟩ := hpart
    rw [← List.drop_drop, ← hrest, List.drop_append]
    exact howner.trans (List.prefix_append _ _)

/-- Each step of a node's code leads to a place of the code again, or to its end. -/
theorem Stands.leads (w : t.WellFormed) {node : NodeId} (hr : t.Reaches node) {i height : Nat}
    (h : t.Stands node i height) : ∃ step, t.Leads (t.code node) (t.Passes node) i height step := by
  induction h with
  | start node =>
    have hlen := w.length_code hr
    have hoffset : t.offset node 0 = 1 := rfl
    have hpos := t.offset_le node (Nat.zero_le (t.parts node).length)
    refine ⟨.start node, by rw [w.code_parts hr]; rfl, hr, fun h => ?_⟩
    cases h with
    | start =>
      refine ⟨Nat.zero_le _, .inl ?_, 0, 0, rfl, List.prefix_refl _, .inl ?_⟩
      · have hs := stands_offset (t := t) (Nat.zero_le (t.parts node).length)
        rwa [heightAt_zero] at hs
      · show 0 + 1 < (t.code node).length
        omega
    | reuse =>
      exact ⟨Nat.zero_le _, .inr ⟨Nat.zero_add _, rfl⟩, 0, 0, rfl, List.prefix_refl _,
        .inr ⟨Nat.zero_add _, .inr ⟨rfl, rfl⟩⟩⟩
  | @own node k step height hp =>
    obtain ⟨hnode, hmoves⟩ := own_moves hp
    have hstep : (t.code node)[t.offset node k]? = some step :=
      getElem?_inside (j := 0) (w.part_within hr hp) rfl
    refine ⟨step, hstep, hnode ▸ hr, fun h => ?_⟩
    obtain ⟨htakes, next, hnext, hoff, hheight⟩ := hmoves h
    refine ⟨htakes, .inl ?_, 0, t.offset node k, (Nat.zero_add _).symm, ?_, .inl ?_⟩
    · rw [← hoff, ← hheight]
      exact stands_offset hnext
    · rw [hnode]
      exact List.prefix_refl _
    · have hlen := w.length_code hr
      have hle := t.offset_le node hnext
      rw [hnode, ← hoff]
      omega
  | child hp _ ih =>
    obtain ⟨step, hstep⟩ := ih (hr.child (mem_children_of_part hp))
    exact ⟨step, hstep.around (w.part_within hr hp) fun _ _ h => .inl (h.child hp)⟩
  | finish node =>
    have hlen := w.length_code hr
    refine ⟨.finish node, w.code_finish hr, hr, fun h => ?_⟩
    obtain ⟨rfl, htakes, hleaves⟩ := finish_moves h
    exact ⟨htakes, .inr ⟨hlen.symm, hleaves⟩, 0, _, (Nat.zero_add _).symm, List.prefix_refl _,
      .inr ⟨hlen.symm, .inl rfl⟩⟩

/-! ## Nodes one after the other -/

/-- In the code of some nodes that are evaluated one after the other, or at its end. -/
inductive StandsIn (t : Tree) (nodes : List NodeId) : Nat → Nat → Prop where
  | node {k : Nat} {node : NodeId} {i height : Nat} (there : nodes[k]? = some node)
      (inside : t.Stands node i height) :
      StandsIn t nodes (((nodes.take k).flatMap t.code).length + i) (k + height)
  | done : StandsIn t nodes (nodes.flatMap t.code).length nodes.length

theorem standsIn_begin (t : Tree) (nodes : List NodeId) {k : Nat} (hk : k ≤ nodes.length) :
    t.StandsIn nodes ((nodes.take k).flatMap t.code).length k := by
  rcases Nat.lt_or_ge k nodes.length with hlt | hge
  · exact .node (List.getElem?_eq_getElem hlt) (.start _)
  · obtain rfl : k = nodes.length := Nat.le_antisymm hk hge
    rw [List.take_length]
    exact .done

theorem Passes.node {nodes : List NodeId} {k : Nat} {node : NodeId} {i height : Nat}
    (there : nodes[k]? = some node) (h : t.Passes node i height) :
    t.StandsIn nodes (((nodes.take k).flatMap t.code).length + i) (k + height) := by
  rcases h with h | ⟨rfl, rfl⟩
  · exact .node there h
  · have hs := t.standsIn_begin nodes (List.getElem?_eq_some_iff.1 there).1
    rwa [Nat.succ_eq_add_one, length_code_take_succ there] at hs

theorem StandsIn.leads (w : t.WellFormed) {nodes : List NodeId} (hr : ∀ n ∈ nodes, t.Reaches n)
    {i height : Nat} (h : t.StandsIn nodes i height) :
    i = (nodes.flatMap t.code).length ∨
      ∃ step, t.Leads (nodes.flatMap t.code) (t.StandsIn nodes) i height step := by
  cases h with
  | done => exact .inl rfl
  | @node k node i height there inside =>
    obtain ⟨step, hstep⟩ := inside.leads w (hr node (List.mem_of_getElem? there))
    exact .inr ⟨step, hstep.around (code_within there) fun _ _ h => h.node there⟩

end Tree
end ReactiveLang
