import ReactiveLang.Proofs.Eval.Heights

/-!
# Brackets

The start and the finish of a node are a pair of brackets around the steps between them. A start is
a pair by itself if a value of the pass before takes the place of the node. What a node calls when it
is finished runs right after its finish, in a frame of its own, before any bracket that is open is
closed.

* `Bracketed`: traces with such brackets, in which the calls are numbered as they begin.
* `Pending`: traces that may become so, with the brackets that are open in each frame.
* `Tree.Within`: the brackets that are open at the places of a node's code.
* `Within.turning`: the step at a place opens or closes brackets as the place that it leads to says.
-/

namespace ReactiveLang

/-- A step that is taken, while frames with these evaluations are there, the newest first. -/
structure Event where
  step : Step
  frames : List EvaluationId
  /-- A value of the pass before takes the place of the node. -/
  reused : Bool

namespace Step

/-- Neither opens nor closes a bracket. -/
def chooses : Step → Bool
  | check _ | jump _ _ | jumpIf _ _ _ => true
  | start _ | finish _ => false

/-- What a step makes of the open brackets, the innermost first. -/
inductive Turns : Step → Bool → List NodeId → List NodeId → Prop where
  | start (node : NodeId) (opens : List NodeId) : Turns (.start node) false opens (node :: opens)
  | reuse (node : NodeId) (opens : List NodeId) : Turns (.start node) true opens opens
  | choice {step : Step} (chooses : step.chooses = true) (opens : List NodeId) :
      Turns step false opens opens
  | finish (node : NodeId) (opens : List NodeId) : Turns (.finish node) false (node :: opens) opens

/-- The same inside of more brackets. -/
theorem Turns.append {step : Step} {reused : Bool} {opens opens' : List NodeId}
    (h : step.Turns reused opens opens') (around : List NodeId) :
    step.Turns reused (opens ++ around) (opens' ++ around) := by
  cases h with
  | start node => exact .start node _
  | reuse node => exact .reuse node _
  | choice chooses => exact .choice chooses _
  | finish node => exact .finish node _

end Step

/-! ## Traces -/

/-- The node may call a definition: it is a call or a conversion. -/
def Tree.MayCall (t : Tree) (node : NodeId) : Prop :=
  (∃ function arguments, t.construct node = .call function arguments) ∨
    ∃ expression annotation, t.construct node = .convert expression annotation

/-- Brackets are properly nested in the steps of some frames, between the two numbers of evaluations
that have begun. The steps of each call have its evaluation on top, and come right after the finish
of the node that calls. -/
inductive Bracketed (t : Tree) : List EvaluationId → Nat → List Event → Nat → Prop where
  | nil (frames : List EvaluationId) (n : Nat) : Bracketed t frames n [] n
  | choice {frames : List EvaluationId} {n m : Nat} {step : Step} {events : List Event}
      (chooses : step.chooses = true) (rest : Bracketed t frames n events m) :
      Bracketed t frames n (⟨step, frames, false⟩ :: events) m
  | reuse {frames : List EvaluationId} {n m : Nat} {events : List Event} (node : NodeId)
      (rest : Bracketed t frames n events m) :
      Bracketed t frames n (⟨.start node, frames, true⟩ :: events) m
  | node {frames : List EvaluationId} {n k m : Nat} {inner events : List Event} (node : NodeId)
      (inside : Bracketed t frames n inner k) (rest : Bracketed t frames k events m) :
      Bracketed t frames n
        (⟨.start node, frames, false⟩ :: inner ++ ⟨.finish node, frames, false⟩ :: events) m
  | call {frames : List EvaluationId} {n k l m : Nat} {inner called events : List Event}
      {node : NodeId} (calls : t.MayCall node) (inside : Bracketed t frames n inner k)
      (block : Bracketed t (⟨k⟩ :: frames) (k + 1) called l)
      (rest : Bracketed t frames l events m) :
      Bracketed t frames n (⟨.start node, frames, false⟩ :: inner ++
        ⟨.finish node, frames, false⟩ :: (called ++ events)) m

variable {t : Tree} {frames : List EvaluationId} {events more : List Event} {n m k : Nat}

theorem Bracketed.append (h : Bracketed t frames n events m) (h' : Bracketed t frames m more k) :
    Bracketed t frames n (events ++ more) k := by
  induction h with
  | nil => exact h'
  | choice chooses _ ih => exact .choice chooses (ih h')
  | reuse node _ ih => exact .reuse node (ih h')
  | node node inside _ _ ih =>
    simpa only [List.append_assoc, List.cons_append] using Bracketed.node node inside (ih h')
  | call calls inside block _ _ _ ih =>
    simpa only [List.append_assoc, List.cons_append] using
      Bracketed.call calls inside block (ih h')

/-- The evaluation of a frame, with the brackets that are open in it, the innermost first. -/
abbrev Opened := EvaluationId × List NodeId

/-- What a trace has so far whose brackets can be properly nested: in each frame some brackets are
open, and each frame but the first has been called by a node whose bracket has just been closed. -/
inductive Pending (t : Tree) : List Opened → List Event → Nat → Prop where
  | program {events : List Event} {n : Nat} (block : Bracketed t [.root] 1 events n) :
      Pending t [(.root, [])] events n
  | node {e : EvaluationId} {opens : List NodeId} {below : List Opened} {before inner : List Event}
      {n m : Nat} (node : NodeId) (pending : Pending t ((e, opens) :: below) before n)
      (inside : Bracketed t (e :: below.map Prod.fst) n inner m) :
      Pending t ((e, node :: opens) :: below)
        (before ++ ⟨.start node, e :: below.map Prod.fst, false⟩ :: inner) m
  | call {e : EvaluationId} {opens : List NodeId} {below : List Opened}
      {before inner called : List Event} {n k m : Nat} {node : NodeId} (calls : t.MayCall node)
      (pending : Pending t ((e, opens) :: below) before n)
      (inside : Bracketed t (e :: below.map Prod.fst) n inner k)
      (block : Bracketed t (⟨k⟩ :: e :: below.map Prod.fst) (k + 1) called m) :
      Pending t ((⟨k⟩, []) :: (e, opens) :: below)
        (before ++ (⟨.start node, e :: below.map Prod.fst, false⟩ :: inner ++
          ⟨.finish node, e :: below.map Prod.fst, false⟩ :: called)) m

namespace Pending

variable {stack below : List Opened} {e : EvaluationId} {opens opens' : List NodeId}

/-- More steps inside of the innermost bracket. -/
theorem extend (h : Pending t stack events n)
    (hmore : Bracketed t (stack.map Prod.fst) n more m) : Pending t stack (events ++ more) m := by
  cases h with
  | program block => exact .program (block.append hmore)
  | node node pending inside =>
    simpa only [List.append_assoc, List.cons_append] using
      Pending.node node pending (inside.append hmore)
  | call calls pending inside block =>
    simpa only [List.append_assoc, List.cons_append] using
      Pending.call calls pending inside (block.append hmore)

/-- One more step. -/
theorem turn (h : Pending t ((e, opens) :: below) events n) {step : Step} {reused : Bool}
    (hturns : step.Turns reused opens opens') : Pending t ((e, opens') :: below)
      (events ++ [⟨step, e :: below.map Prod.fst, reused⟩]) n := by
  cases hturns with
  | start node => exact .node node h (.nil _ n)
  | reuse node => exact h.extend (.reuse node (.nil _ n))
  | choice chooses => exact h.extend (.choice chooses (.nil _ n))
  | finish node =>
    cases h with
    | node _ pending inside =>
      simpa only [List.append_assoc, List.cons_append, List.map_cons] using
        pending.extend (.node node inside (.nil _ n))

/-- The finish of a node begins a call. -/
theorem enter {node : NodeId} (calls : t.MayCall node)
    (h : Pending t ((e, node :: opens) :: below) events n) :
    Pending t ((⟨n⟩, []) :: (e, opens) :: below)
      (events ++ [⟨.finish node, e :: below.map Prod.fst, false⟩]) (n + 1) := by
  cases h with
  | node _ pending inside =>
    simpa only [List.append_assoc, List.cons_append] using
      Pending.call calls pending inside (.nil _ (n + 1))

/-- A call is done when no bracket is open in its frame. -/
theorem leave {called : EvaluationId} (h : Pending t ((called, []) :: (e, opens) :: below) events n) :
    Pending t ((e, opens) :: below) events n := by
  cases h with
  | call calls pending inside block =>
    simpa only [List.append_nil, List.map_cons] using
      pending.extend (.call calls inside block (.nil _ n))

/-- The program is done when no bracket is open in its frame, the only one. -/
theorem bracketed (h : Pending t [(e, [])] events n) : Bracketed t [.root] 1 events n := by
  cases h with
  | program block => exact block

/-- What is open can be closed. -/
theorem exists_bracketed (h : Pending t stack events n) :
    ∃ rest m, Bracketed t [.root] 1 (events ++ rest) m := by
  suffices hmore : ∀ more m, Bracketed t (stack.map Prod.fst) n more m →
      ∃ rest k, Bracketed t [.root] 1 (events ++ more ++ rest) k by
    simpa only [List.append_nil] using hmore [] n (.nil _ n)
  -- the steps since the innermost bracket was opened belong to the next one outwards
  induction h with
  | program block =>
    intro more m hmore
    exact ⟨[], m, by simpa only [List.append_nil] using block.append hmore⟩
  | @node e _ below _ _ _ _ node _ inside ih =>
    intro more m hmore
    obtain ⟨rest, k, hrest⟩ := ih _ _ (.node node (inside.append hmore) (.nil _ m))
    refine ⟨⟨.finish node, e :: below.map Prod.fst, false⟩ :: rest, k, ?_⟩
    simpa only [List.append_assoc, List.cons_append, List.nil_append, List.map_cons] using hrest
  | call calls pending inside block ih =>
    intro more m hmore
    obtain ⟨rest, k, hrest⟩ := ih _ _ (.call calls inside (block.append hmore) (.nil _ m))
    refine ⟨rest, k, ?_⟩
    simpa only [List.append_assoc, List.cons_append, List.append_nil, List.map_cons] using hrest

end Pending

/-! ## Code -/

/-- Whether the step, where it leaves so many values, has one of the pass before for the node. -/
def Step.reuses (leaves : Nat) : Step → Bool
  | .start _ => leaves == 1
  | _ => false

theorem Step.reuses_of_chooses {step : Step} (h : step.chooses = true) (leaves : Nat) :
    step.reuses leaves = false := by
  cases step <;> first | rfl | cases h

namespace Tree

/-- Before step number `i` of a node's code these brackets of the code are open. -/
inductive Within (t : Tree) : NodeId → Nat → List NodeId → Prop where
  | start (node : NodeId) : Within t node 0 []
  | own {node : NodeId} {k : Nat} {step : Step} {height : Nat}
      (part : (t.parts node)[k]? = some (.own step, height)) : Within t node (t.offset node k) [node]
  | child {node : NodeId} {k : Nat} {child : NodeId} {base i : Nat} {opens : List NodeId}
      (part : (t.parts node)[k]? = some (.child child, base)) (inside : Within t child i opens) :
      Within t node (t.offset node k + i) (opens ++ [node])
  | finish (node : NodeId) : Within t node (t.offset node (t.parts node).length) [node]

/-- Somewhere in a node's code, or at its end with no bracket open. -/
def Crosses (t : Tree) (node : NodeId) (i : Nat) (opens : List NodeId) : Prop :=
  t.Within node i opens ∨ (i = (t.code node).length ∧ opens = [])

/-- From a place in some code: the next step is of a node of the tree, and turns the open brackets
into those at the place that it leads to. -/
structure Turning (t : Tree) (code : List Step) (places : Nat → List NodeId → Prop) (i : Nat)
    (opens : List NodeId) (step : Step) : Prop where
  there : code[i]? = some step
  reaches : t.Reaches step.node
  moves : ∀ {skip takes leaves : Nat}, t.Moves step skip takes leaves →
    ∃ opens', step.Turns (step.reuses leaves) opens opens' ∧ places (i + skip) opens'

variable {node : NodeId} {i : Nat} {opens : List NodeId}

/-- The same for code that has more code around it, inside of more brackets. -/
theorem Turning.around {part code : List Step} {places places' : Nat → List NodeId → Prop}
    {base : Nat} {step : Step} {outer : List NodeId} (h : t.Turning part places i opens step)
    (hpart : part <+: code.drop base)
    (hplaces : ∀ i opens, places i opens → places' (base + i) (opens ++ outer)) :
    t.Turning code places' (base + i) (opens ++ outer) step := by
  refine ⟨getElem?_inside hpart h.there, h.reaches, fun hm => ?_⟩
  obtain ⟨opens', hturns, hplace⟩ := h.moves hm
  refine ⟨opens' ++ outer, hturns.append outer, ?_⟩
  rw [Nat.add_assoc]
  exact hplaces _ _ hplace

/-- Between the parts of a node's code its own bracket is open. -/
theorem within_offset {k : Nat} (hk : k ≤ (t.parts node).length) :
    t.Within node (t.offset node k) [node] := by
  rcases Nat.lt_or_ge k (t.parts node).length with hlt | hge
  · obtain ⟨⟨part, base⟩, hp⟩ : ∃ p, (t.parts node)[k]? = some p :=
      ⟨_, List.getElem?_eq_getElem hlt⟩
    cases part with
    | child c => exact .child hp (.start c)
    | own step => exact .own hp
  · obtain rfl : k = (t.parts node).length := Nat.le_antisymm hk hge
    exact .finish node

/-- Past a child, the code goes on with what comes after it. -/
theorem Crosses.child {k : Nat} {child : NodeId} {base : Nat}
    (hp : (t.parts node)[k]? = some (.child child, base)) (h : t.Crosses child i opens) :
    t.Within node (t.offset node k + i) (opens ++ [node]) := by
  rcases h with h | ⟨rfl, rfl⟩
  · exact .child hp h
  · have hnext := t.within_offset (List.getElem?_eq_some_iff.1 hp).1
    rwa [offset_succ hp] at hnext

/-- The steps of a node between its children are choices. -/
theorem chooses_of_part {k : Nat} {step : Step} {height : Nat}
    (hp : (t.parts node)[k]? = some (.own step, height)) : step.chooses = true := by
  have hmem := List.mem_of_getElem? hp
  obtain ⟨children, hparts, -⟩ | ⟨condition, yes, no, hnode⟩ |
    ⟨initial, condition, next, hnode⟩ := t.parts_cases node
  · rw [hparts] at hmem
    obtain ⟨j, hj, heq⟩ := List.mem_mapIdx.1 hmem
    cases heq
  · rw [parts, hnode] at hmem
    simp only [List.mem_cons, Prod.mk.injEq, Part.own.injEq, reduceCtorEq, false_and, false_or,
      List.not_mem_nil, or_false] at hmem
    obtain ⟨rfl, -⟩ | ⟨rfl, -⟩ := hmem <;> rfl
  · rw [parts, hnode] at hmem
    simp only [List.mem_cons, Prod.mk.injEq, Part.own.injEq, reduceCtorEq, false_and, false_or,
      List.not_mem_nil, or_false] at hmem
    obtain ⟨rfl, -⟩ | ⟨rfl, -⟩ | ⟨rfl, -⟩ := hmem <;> rfl

/-- Each step of a node's code turns the brackets that are open there into those where it leads. -/
theorem Within.turning (w : t.WellFormed) (hr : t.Reaches node) (h : t.Within node i opens) :
    ∃ step, t.Turning (t.code node) (t.Crosses node) i opens step := by
  induction h with
  | start node =>
    refine ⟨.start node, by rw [w.code_parts hr]; rfl, hr, fun hm => ?_⟩
    cases hm with
    | start => exact ⟨[node], .start node [], .inl (within_offset (Nat.zero_le _))⟩
    | reuse => exact ⟨[], .reuse node [], .inr ⟨Nat.zero_add _, rfl⟩⟩
  | @own node k step height hp =>
    obtain ⟨hnode, hmoves⟩ := own_moves hp
    have hchooses := chooses_of_part hp
    refine ⟨step, getElem?_inside (j := 0) (w.part_within hr hp) rfl, hnode ▸ hr, fun hm => ?_⟩
    obtain ⟨-, next, hnext, hoffset, -⟩ := hmoves hm
    rw [Step.reuses_of_chooses hchooses, ← hoffset]
    exact ⟨[node], .choice hchooses [node], .inl (within_offset hnext)⟩
  | child hp _ ih =>
    obtain ⟨step, hstep⟩ := ih (hr.child (mem_children_of_part hp))
    exact ⟨step, hstep.around (w.part_within hr hp) fun _ _ h => .inl (h.child hp)⟩
  | finish node =>
    refine ⟨.finish node, w.code_finish hr, hr, fun hm => ?_⟩
    obtain ⟨rfl, -⟩ := finish_moves hm
    exact ⟨[], .finish node [], .inr ⟨(w.length_code hr).symm, rfl⟩⟩

/-- In the code of some nodes that are evaluated one after the other, or at its end. -/
inductive WithinIn (t : Tree) (nodes : List NodeId) : Nat → List NodeId → Prop where
  | node {k : Nat} {node : NodeId} {i : Nat} {opens : List NodeId} (there : nodes[k]? = some node)
      (inside : t.Within node i opens) :
      WithinIn t nodes (((nodes.take k).flatMap t.code).length + i) opens
  | done : WithinIn t nodes (nodes.flatMap t.code).length []

theorem withinIn_begin (t : Tree) (nodes : List NodeId) {k : Nat} (hk : k ≤ nodes.length) :
    t.WithinIn nodes ((nodes.take k).flatMap t.code).length [] := by
  rcases Nat.lt_or_ge k nodes.length with hlt | hge
  · exact .node (List.getElem?_eq_getElem hlt) (.start _)
  · obtain rfl : k = nodes.length := Nat.le_antisymm hk hge
    rw [List.take_length]
    exact .done

theorem Crosses.withinIn {nodes : List NodeId} {k : Nat} (there : nodes[k]? = some node)
    (h : t.Crosses node i opens) :
    t.WithinIn nodes (((nodes.take k).flatMap t.code).length + i) opens := by
  rcases h with h | ⟨rfl, rfl⟩
  · exact .node there h
  · have hnext := t.withinIn_begin nodes (List.getElem?_eq_some_iff.1 there).1
    rwa [Nat.succ_eq_add_one, length_code_take_succ there] at hnext

/-- At the end of the code no bracket is open; before, there is a step. -/
theorem WithinIn.turning (w : t.WellFormed) {nodes : List NodeId}
    (hr : ∀ node ∈ nodes, t.Reaches node) (h : t.WithinIn nodes i opens) :
    (i = (nodes.flatMap t.code).length ∧ opens = []) ∨
      ∃ step, t.Turning (nodes.flatMap t.code) (t.WithinIn nodes) i opens step := by
  cases h with
  | done => exact .inl ⟨rfl, rfl⟩
  | @node k node i opens there inside =>
    obtain ⟨step, hstep⟩ := inside.turning w (hr node (List.mem_of_getElem? there))
    have ha : t.Turning (nodes.flatMap t.code) (t.WithinIn nodes)
        (((nodes.take k).flatMap t.code).length + i) (opens ++ []) step :=
      hstep.around (code_within there) fun _ _ h => by
        rw [List.append_nil]
        exact h.withinIn there
    rw [List.append_nil] at ha
    exact .inr ⟨step, ha⟩

end Tree
end ReactiveLang
