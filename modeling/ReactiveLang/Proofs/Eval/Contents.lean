import ReactiveLang.Proofs.Eval.Streams

/-!
# What a machine contains

`m.Only P S` says that every value that later steps of a machine can read satisfies `P`: those that
wait on the frames, those that are bound, those of reactions and those that are remembered. What is
converted, which is what `this` stands for, satisfies `S`.

* `World.seen_only`, `lookup_only`: what a node reads satisfies `P` too.
* Each part of a step keeps `Only`, as long as what it takes from elsewhere satisfies the same.
* `startNode_cases`, `checkReaction_cases`, `branch_cases`, `enter_cases`: all that each part of a
  step can do; `executes`, `execute_fails`: all that the effect of a step can be.
* `Only.execute`: the effect of a step keeps it, if the outcome of the node does (`Outcome.Only`).
* `Only.settle`: so does leaving frames, if what they give satisfies `P`; then so does the result.
-/

namespace ReactiveLang

variable {P S : Value → Prop}

/-! ## Evaluations -/

/-- What was bound satisfies `P`, and what is converted satisfies `S`. -/
structure Evaluation.Only (P S : Value → Prop) (e : Evaluation) : Prop where
  subject : ∀ v, e.subject = some v → S v
  bindings : ∀ b ∈ e.bindings, P b.2

theorem Evaluation.only_start (kind : EvaluationKind) (definition : NodeId)
    (closure : Option EvaluationId) : (Evaluation.start kind definition closure).Only P S :=
  ⟨nofun, nofun⟩

theorem Evaluation.Only.bind {e : Evaluation} (h : e.Only P S) (name : String) {v : Value}
    (hv : P v) : (e.bind name v).Only P S := by
  refine ⟨h.subject, fun b hb => ?_⟩
  rcases Keyed.mem_insert hb with rfl | hb
  · exact hv
  · exact h.bindings b hb

namespace Evaluations

def Only (P S : Value → Prop) (es : Evaluations) : Prop :=
  ∀ id e, es.find? id = some e → e.Only P S

variable {es : Evaluations}

theorem find?_begin (e : Evaluation) (id : EvaluationId) :
    (es.begin e).2.find? id = if id = ⟨es.size⟩ then some e else es.find? id := by
  obtain ⟨i⟩ := id
  simp only [Evaluations.begin, find?, Store.get?_push, EvaluationId.mk.injEq]

theorem find?_bind (at_ id : EvaluationId) (name : String) (v : Value) :
    (Evaluations.bind es at_ name v).find? id =
      if id = at_ then (es.find? id).map fun e => e.bind name v else es.find? id := by
  obtain ⟨i⟩ := id
  obtain ⟨j⟩ := at_
  simp only [Evaluations.bind, find?, Store.get?_modify, EvaluationId.mk.injEq]

theorem only_empty : Evaluations.Only P S Store.empty := by
  intro id e h
  simp [find?, Store.empty, Store.get?, StoreTree.get?] at h

theorem Only.begin (h : es.Only P S) {e : Evaluation} (he : e.Only P S) :
    (es.begin e).2.Only P S := by
  intro id e' hf
  rw [find?_begin] at hf
  split at hf
  · cases hf
    exact he
  · exact h id e' hf

theorem Only.bind (h : es.Only P S) (at_ : EvaluationId) (name : String) {v : Value} (hv : P v) :
    (Evaluations.bind es at_ name v).Only P S := by
  intro id e' hf
  rw [find?_bind] at hf
  split at hf
  · obtain ⟨e, he, rfl⟩ := Option.map_eq_some_iff.1 hf
    exact (h id e he).bind name hv
  · exact h id e' hf

theorem Only.resolve (h : es.Only P S) {id : EvaluationId} {name : String} {v : Value}
    (hv : es.resolve id name = some v) : P v := by
  obtain ⟨id', -, hg⟩ := List.exists_of_findSome?_eq_some hv
  obtain ⟨e, he, hl⟩ := Option.bind_eq_some_iff.1 hg
  exact (h id' e he).bindings _ (Keyed.mem_of_lookup hl)

end Evaluations

/-! ## What a node reads -/

namespace World

variable {w : World}

section
variable (hs : w.streams.Only P) (hnothing : P .nothing)
include hs hnothing

/-- What is seen of a value that is no stream is the value. -/
theorem seen_only {v : Value} (hv : v.toStream? = none → P v) : P (w.seen v) := by
  unfold seen
  split
  · rename_i id
    cases hf : w.streams.find? id with
    | none => exact hnothing
    | some s =>
      cases hl : s.latestAt? w.pass.number with
      | none => simpa [hl] using hnothing
      | some u =>
        simp only [hl, Option.bind_some, Option.getD_some]
        obtain ⟨x, hx, rfl⟩ := Option.map_eq_some_iff.1 hl
        have hm : x ∈ s.values := by simpa using List.mem_of_find?_eq_some hx
        exact hs _ s hf x hm
  · rename_i hne
    refine hv ?_
    cases v with
    | stream id => exact absurd rfl (hne id)
    | _ => rfl

theorem previousValue_only {stream count v : Value} (h : w.previousValue stream count = .ok v) :
    P v := by
  unfold previousValue at h
  obtain ⟨id, -, h⟩ := bind_eq_ok h
  obtain ⟨⟨x, u⟩, -, h⟩ := bind_eq_ok h
  cases h
  cases hf : w.streams.find? id with
  | none => exact hnothing
  | some s =>
    simp only [Option.bind_some]
    cases hl : s.previousAt? ((Number.floorNat? x).getD 0) w.pass.number with
    | none => exact hnothing
    | some u =>
      have hm : u ∈ s.visible w.pass.number := List.mem_of_getElem? hl
      obtain ⟨y, hy, rfl⟩ := List.mem_map.1 hm
      exact hs _ s hf y (by simpa using (List.mem_filter.1 hy).1)

end

theorem operand_only (hnothing : P .nothing) {operands : List Value} (h : ∀ v ∈ operands, P v)
    (i : Nat) : P (operand operands i) := by
  unfold operand
  cases hi : operands[i]? with
  | none => simpa [List.getD, hi] using hnothing
  | some v => simpa [List.getD, hi] using h v (List.mem_of_getElem? hi)

theorem pairUp_only : ∀ {values : List Value}, (∀ v ∈ values, P v) →
    ∀ e ∈ pairUp values, P e.1 ∧ P e.2
  | [], _, e, he => by simp [pairUp] at he
  | [_], _, e, he => by simp [pairUp] at he
  | k :: v :: rest, h, e, he => by
    rcases List.mem_cons.1 he with rfl | he
    · exact ⟨h _ (by simp), h _ (by simp)⟩
    · exact pairUp_only (fun u hu => h u (by simp [hu])) e he

theorem lookup_only {es : Evaluations} (h : es.Only P S)
    (hbuiltIn : ∀ kind, P (.function (.stream kind))) {current : EvaluationId} {name : String}
    {v : Value} (hv : lookup es current name = .ok v) : P v := by
  unfold lookup at hv
  split at hv
  · rename_i u hu
    cases hv
    exact h.resolve hu
  · split at hv
    · cases hv
      exact hbuiltIn _
    · cases hv

end World

/-! ## Machines -/

/-- What the pass starts with satisfies `P`. -/
structure Pass.Only (P : Value → Prop) (pass : Pass) : Prop where
  memo : ∀ e ∈ pass.memo, P e.2
  reactions : ∀ e ∈ pass.reactions, P e.2

/-- What a call binds satisfies `P`, and what it converts satisfies `S`. -/
structure Call.Only (P S : Value → Prop) (c : Call) : Prop where
  subject : ∀ v, c.subject = some v → S v
  arguments : ∀ v ∈ c.arguments, P v

/-- What a node makes satisfies `P`. -/
def Outcome.Only (P S : Value → Prop) : Outcome → Prop
  | .keep => True
  | .value v | .named _ v | .reaction v => P v
  | .stream _ _ => True
  | .run call => call.Only P S

namespace Machine

/-- Every value in the machine that later steps can read satisfies `P`, and what is converted
satisfies `S`. -/
structure Only (P S : Value → Prop) (m : Machine) : Prop where
  values : ∀ f ∈ m.frames, ∀ v ∈ f.values, P v
  evaluations : m.evaluations.Only P S
  reactions : ∀ e ∈ m.reactions, P e.2
  memo : ∀ e ∈ m.memo, P e.2

variable {m m' : Machine} {w : World}

theorem only_start (p : Program) : (Machine.start p).Only P S := by
  refine ⟨fun f hf v hv => ?_, ?_, nofun, nofun⟩
  · simp only [start, List.mem_singleton] at hf
    subst hf
    simp at hv
  · exact Evaluations.only_empty.begin (Evaluation.only_start _ _ _)

theorem only_insert {entries : List (NodeId × Value)} (h : ∀ e ∈ entries, P e.2) (node : NodeId)
    {v : Value} (hv : P v) : ∀ e ∈ Keyed.insert node v entries, P e.2 := by
  intro e he
  rcases Keyed.mem_insert he with rfl | he
  · exact hv
  · exact h e he

section
variable (h : m.Only P S)
include h

theorem Only.withFrame {change : Frame → Frame}
    (hc : ∀ f : Frame, (∀ v ∈ f.values, P v) → ∀ v ∈ (change f).values, P v) :
    (m.withFrame change).Only P S := by
  unfold Machine.withFrame
  split
  · rename_i f rest hf
    refine ⟨fun g hg => ?_, h.evaluations, h.reactions, h.memo⟩
    rcases List.mem_cons.1 hg with rfl | hg
    · exact hc f (h.values f (by simp [hf]))
    · exact h.values g (by simp [hf, hg])
  · exact h

theorem Only.skip (count : Nat) : (m.skip count).Only P S := h.withFrame fun _ hf => hf

theorem Only.push {v : Value} (hv : P v) : (m.push v).Only P S := by
  refine h.withFrame fun f hf u hu => ?_
  rcases List.mem_cons.1 hu with rfl | hu
  · exact hv
  · exact hf u hu

/-- Nothing stands for the values that are not there. -/
theorem Only.pop (hnothing : P .nothing) (count : Nat) :
    (∀ v ∈ (m.pop count).1, P v) ∧ (m.pop count).2.Only P S := by
  unfold Machine.pop
  split
  · rename_i f rest hf
    have hv := h.values f (by simp [hf])
    constructor
    · intro v hm
      simp only [Frame.pop, List.mem_reverse, List.mem_append] at hm
      rcases hm with hm | hm
      · exact hv v (List.mem_of_mem_take hm)
      · rwa [(List.mem_replicate.1 hm).2]
    · refine ⟨fun g hg => ?_, h.evaluations, h.reactions, h.memo⟩
      rcases List.mem_cons.1 hg with rfl | hg
      · exact fun v hm => hv v (List.mem_of_mem_drop hm)
      · exact h.values g (by simp [hf, hg])
  · refine ⟨fun v hm => ?_, h⟩
    rwa [(List.mem_replicate.1 hm).2]

theorem Only.bind (name : String) {v : Value} (hv : P v) : (m.bind name v).Only P S :=
  ⟨h.values, h.evaluations.bind _ _ hv, h.reactions, h.memo⟩

theorem Only.fail (f : Failure) : (m.fail f).Only P S :=
  ⟨nofun, h.evaluations, h.reactions, h.memo⟩

theorem Only.withMemo {memo : List (NodeId × Value)} (hm : ∀ e ∈ memo, P e.2) :
    ({ m with memo } : Machine).Only P S :=
  ⟨h.values, h.evaluations, h.reactions, hm⟩

theorem Only.withReactions {reactions : List (NodeId × Value)} (hm : ∀ e ∈ reactions, P e.2) :
    ({ m with reactions } : Machine).Only P S :=
  ⟨h.values, h.evaluations, hm, h.memo⟩

theorem Only.remember (w : World) (node : NodeId) (hne : m.frames ≠ []) :
    (m.remember w node).Only P S := by
  unfold Machine.remember
  split
  · rename_i v hv
    split
    · refine h.withMemo (only_insert h.memo node ?_)
      unfold currentValue? at hv
      split at hv
      · rename_i f rest hf
        exact h.values f (by simp [hf]) v (List.mem_of_mem_head? (by simpa using hv))
      · rename_i hf
        exact absurd hf hne
    · exact h
  · exact h

end

theorem memoized?_mem {node : NodeId} {v : Value} (h : memoized? w node = some v) :
    (node, v) ∈ w.pass.memo := by
  unfold memoized? at h
  split at h
  · cases h
  · rename_i u hu
    split at h
    · cases h
    · split at h
      · cases h
      · cases h
        exact Keyed.mem_of_lookup hu

/-- All that the check of a reaction can do: nothing when the reaction is new, else bind the value
that it had to its name, if it has one, and leave out the initial value. -/
theorem checkReaction_cases (m : Machine) (w : World) (node : NodeId) :
    m.checkReaction w node = m ∨ ∃ previous m1, w.pass.reactions.lookup node = some previous ∧
      (m1 = m ∨ ∃ name, boundName? w.tree node = some name ∧ m1 = m.bind name previous) ∧
      (m.checkReaction w node = m1 ∨ ∃ initial condition next,
        w.tree.construct node = .reaction initial condition next ∧
          m.checkReaction w node = m1.skip (w.program.code.length initial + 1)) := by
  unfold Machine.checkReaction
  split
  · exact .inl rfl
  · rename_i previous hprevious
    dsimp only
    cases hname : boundName? w.tree node with
    | none =>
      refine .inr ⟨previous, m, hprevious, .inl rfl, ?_⟩
      split
      · rename_i initial condition next hnode
        exact .inr ⟨initial, condition, next, hnode, rfl⟩
      · exact .inl rfl
    | some name =>
      refine .inr ⟨previous, _, hprevious, .inr ⟨name, rfl, rfl⟩, ?_⟩
      split
      · rename_i initial condition next hnode
        exact .inr ⟨initial, condition, next, hnode, rfl⟩
      · exact .inl rfl

/-- What binds and skips keep, the check of a reaction keeps. -/
theorem checkReaction_keeps {P : Machine → Prop} (node : NodeId) (h : P m)
    (hbind : ∀ name previous, w.pass.reactions.lookup node = some previous →
      P (m.bind name previous))
    (hskip : ∀ m1 count, P m1 → P (m1.skip count)) : P (m.checkReaction w node) := by
  obtain hcheck | ⟨previous, m1, hprevious, hm1, hcheck⟩ := m.checkReaction_cases w node
  · rwa [hcheck]
  have h1 : P m1 := by
    obtain rfl | ⟨name, -, rfl⟩ := hm1
    · exact h
    · exact hbind name previous hprevious
  obtain hcheck | ⟨_, _, _, -, hcheck⟩ := hcheck
  · rwa [hcheck]
  · rw [hcheck]
    exact hskip _ _ h1

/-- All that the start of a node can do: nothing, or in the program's frame to leave out its code and
put a value of the pass before in its place. -/
theorem startNode_cases (m : Machine) (w : World) (node : NodeId) :
    m.startNode w node = m ∧ (m.inProgram = true → memoized? w node = none) ∨
      ∃ v, m.inProgram = true ∧ memoized? w node = some v ∧
        m.startNode w node = { m.skip (w.program.code.length node - 1) with
          memo := Keyed.insert node v (m.skip (w.program.code.length node - 1)).memo }.push v := by
  unfold Machine.startNode
  split
  · rename_i hin
    split
    · rename_i v hv
      exact .inr ⟨v, hin, hv, rfl⟩
    · rename_i hnone
      exact .inl ⟨rfl, fun _ => hnone⟩
  · rename_i hout
    exact .inl ⟨rfl, fun hin => absurd hin hout⟩

theorem startNode_eq_self {node : NodeId} (h : m.inProgram = true → memoized? w node = none) :
    m.startNode w node = m := by
  obtain ⟨hstart, -⟩ | ⟨v, hin, hv, -⟩ := m.startNode_cases w node
  · exact hstart
  · cases (h hin).symm.trans hv

/-- All that a jump on a truth value can do: go on where the value is the other one, else skip, and
for a reaction put the value that it had in the place of a next one. -/
theorem branch_cases {node : NodeId} {count : Nat} {when : Bool}
    (h : m.branch w node count when = .ok m') :
    ∃ b, w.seen (World.operand (m.pop 1).1 0) = .boolean b ∧
      (b ≠ when ∧ m' = (m.pop 1).2 ∨
        b = when ∧ isReaction w.tree node = false ∧ m' = (m.pop 1).2.skip count ∨
        b = when ∧ isReaction w.tree node = true ∧ m' =
          ((m.pop 1).2.skip count).push ((w.pass.reactions.lookup node).getD .nothing)) := by
  unfold Machine.branch at h
  dsimp only at h
  split at h
  · rename_i b hseen
    refine ⟨b, hseen, ?_⟩
    split at h
    · rename_i hwhen
      split at h
      · rename_i hreaction
        cases h
        exact .inr (.inr ⟨hwhen, hreaction, rfl⟩)
      · rename_i hreaction
        cases h
        exact .inr (.inl ⟨hwhen, Bool.eq_false_iff.2 hreaction, rfl⟩)
    · rename_i hother
      cases h
      exact .inl ⟨hother, rfl⟩
  · cases h

section
variable (h : m.Only P S) (hp : w.pass.Only P)
include h hp

theorem Only.startNode (node : NodeId) : (m.startNode w node).Only P S := by
  obtain ⟨hstart, -⟩ | ⟨v, -, hv, hstart⟩ := m.startNode_cases w node <;> rw [hstart]
  · exact h
  · have hvok := hp.memo _ (memoized?_mem hv)
    have hs := h.skip (w.program.code.length node - 1)
    exact (hs.withMemo (only_insert hs.memo node hvok)).push hvok

theorem Only.checkReaction (node : NodeId) : (m.checkReaction w node).Only P S :=
  checkReaction_keeps node h (fun _ _ hl => h.bind _ (hp.reactions _ (Keyed.mem_of_lookup hl)))
    fun _ _ h1 => h1.skip _

theorem Only.branch (hnothing : P .nothing) {node : NodeId} {count : Nat} {when : Bool}
    (hb : m.branch w node count when = .ok m') : m'.Only P S := by
  have hpop := (h.pop hnothing 1).2
  obtain ⟨b, -, ⟨-, rfl⟩ | ⟨-, -, rfl⟩ | ⟨-, -, rfl⟩⟩ := branch_cases hb
  · exact hpop
  · exact hpop.skip count
  · refine (hpop.skip count).push ?_
    cases hl : w.pass.reactions.lookup node with
    | none => exact hnothing
    | some v => exact hp.reactions _ (Keyed.mem_of_lookup hl)

end

/-! ## Calls -/

theorem only_bindInputs (t : Tree) {arguments : List Value} (ha : ∀ v ∈ arguments, P v)
    (inputs : List NodeId) {e : Evaluation} (he : e.Only P S) :
    (bindInputs t inputs arguments e).Only P S := by
  induction inputs generalizing arguments e with
  | nil => simpa [bindInputs] using he
  | cons input inputs ih =>
    cases arguments with
    | nil => simpa [bindInputs] using he
    | cons v rest =>
      have hr : ∀ u ∈ rest, P u := fun u hu => ha u (by simp [hu])
      unfold bindInputs
      split
      · exact ih hr (he.bind _ (ha v (by simp)))
      · exact ih hr he

/-- What a call that runs has done to the machine. -/
theorem enter_cases {call : Call} (h : m.enter w call = .ok m') :
    ∃ name counts, callName w.tree call = .ok name ∧
      m.countCall w.program.config call.definition name = .ok { m with callCounts := counts } ∧
      let inputs := if call.kind = .conversion then [] else w.tree.inputsOf call.definition
      let provided := min call.arguments.length inputs.length
      (inputs.drop provided).findSome? (requiredName? w.tree) = none ∧
      let e := bindInputs w.tree inputs call.arguments
        { Evaluation.start call.kind call.definition (some call.closure) with
          subject := call.subject }
      m' = { m with
        callCounts := counts
        evaluations := (m.evaluations.begin e).2
        frames := ⟨call.kind, w.program.code.ofCall call.definition provided, 0, [],
          (m.evaluations.begin e).1⟩ :: m.frames } := by
  unfold Machine.enter at h
  obtain ⟨name, hn, h⟩ := bind_eq_ok h
  obtain ⟨m1, hm, h⟩ := bind_eq_ok h
  have hm1 : ∃ counts, m1 = { m with callCounts := counts } := by
    unfold countCall at hm
    dsimp only at hm
    split at hm
    · cases hm
    · split at hm
      · cases hm
      · cases hm; exact ⟨_, rfl⟩
  obtain ⟨counts, rfl⟩ := hm1
  refine ⟨name, counts, hn, hm, ?_⟩
  dsimp only at h ⊢
  split at h
  · cases h
  · rename_i hr
    cases h
    exact ⟨hr, rfl⟩

section
variable (h : m.Only P S)
include h

theorem Only.enter {call : Call} (hc : call.Only P S) (he : m.enter w call = .ok m') :
    m'.Only P S := by
  obtain ⟨name, counts, -, -, -, rfl⟩ := enter_cases he
  refine ⟨fun f hf => ?_, ?_, h.reactions, h.memo⟩
  · rcases List.mem_cons.1 hf with rfl | hf
    · exact nofun
    · exact h.values f hf
  · exact h.evaluations.begin (only_bindInputs _ hc.arguments _ ⟨hc.subject, nofun⟩)

theorem Only.perform {node : NodeId} {o : Outcome} {streams : Streams} (ho : o.Only P S)
    (hopened : ∀ kind inputs, streams = (openStream w kind node inputs).2 →
      P (.stream (openStream w kind node inputs).1))
    (hp : m.perform w node o = .ok (m', streams)) : m'.Only P S := by
  cases o with
  | keep => cases hp; exact h
  | value v => cases hp; exact h.push ho
  | named name v => cases hp; exact (h.bind name ho).push ho
  | reaction v =>
    cases hp
    exact (h.withReactions (only_insert h.reactions node ho)).push ho
  | stream kind inputs =>
    cases hp
    exact h.push (hopened kind inputs rfl)
  | run call =>
    obtain ⟨m1, hm, hp⟩ := bind_eq_ok hp
    cases hp
    exact h.enter ho hm

end

/-! ## Whole effects -/

@[simp] theorem withFrame_evaluations (change : Frame → Frame) :
    (m.withFrame change).evaluations = m.evaluations := by
  unfold Machine.withFrame
  split <;> rfl

@[simp] theorem skip_evaluations (count : Nat) : (m.skip count).evaluations = m.evaluations :=
  withFrame_evaluations _

@[simp] theorem push_evaluations (v : Value) : (m.push v).evaluations = m.evaluations :=
  withFrame_evaluations _

@[simp] theorem pop_evaluations (count : Nat) : (m.pop count).2.evaluations = m.evaluations := by
  unfold Machine.pop
  split <;> rfl

@[simp] theorem pop_current (count : Nat) : (m.pop count).2.current = m.current := by
  unfold Machine.pop Machine.current
  split
  · rename_i f rest hf; simp [hf, Frame.pop]
  · rfl

/-- A node is finished by its outcome on the values it takes. -/
theorem finishNode_eq (m : Machine) (w : World) (node : NodeId) :
    m.finishNode w node =
      (w.outcome m.evaluations m.current node (m.pop (w.tree.construct node).operandCount).1 >>=
        (m.pop (w.tree.construct node).operandCount).2.perform w node) := by
  unfold finishNode
  simp only [pop_evaluations, pop_current]
  split <;> (rename_i h; rw [h]; rfl)

/-- All that the effect of a step can be, if it does not fail: what its kind does, or for the end of
a node what its outcome does to the machine without the values that the node takes. -/
inductive Executes (w : World) (m : Machine) : Step → Machine → Streams → Prop
  | start (node : NodeId) : Executes w m (.start node) (m.startNode w node) w.streams
  | check (node : NodeId) : Executes w m (.check node) (m.checkReaction w node) w.streams
  | jump (node : NodeId) (count : Nat) : Executes w m (.jump node count) (m.skip count) w.streams
  | jumpIf {node : NodeId} {count : Nat} {when : Bool} {m' : Machine}
      (branched : m.branch w node count when = .ok m') :
      Executes w m (.jumpIf node count when) m' w.streams
  | finish {node : NodeId} {o : Outcome} {m' : Machine} {streams : Streams}
      (outcome : w.outcome m.evaluations m.current node
        (m.pop (w.tree.construct node).operandCount).1 = .ok o)
      (performed : (m.pop (w.tree.construct node).operandCount).2.perform w node o =
        .ok (m', streams)) :
      Executes w m (.finish node) (if m'.inProgram then m'.remember w node else m') streams

theorem executes {s : Step} {streams : Streams} (h : m.execute w s = .ok (m', streams)) :
    Executes w m s m' streams := by
  cases s with
  | start node => cases h; exact .start node
  | check node => cases h; exact .check node
  | jump node count => cases h; exact .jump node count
  | jumpIf node count when =>
    unfold Machine.execute at h
    dsimp only at h
    split at h
    · cases h
      exact .jumpIf ‹_›
    · cases h
  | finish node =>
    unfold Machine.execute at h
    dsimp only at h
    split at h
    · rename_i hfinish
      cases h
      rw [finishNode_eq] at hfinish
      obtain ⟨o, ho, hp⟩ := bind_eq_ok hfinish
      exact .finish ho hp
    · cases h

/-- All that keeps a step from its effect: a condition that is no truth value, or the end of a node
that fails. -/
inductive Fails (w : World) (m : Machine) : Step → Failure → Prop
  | jumpIf (node : NodeId) (count : Nat) (when : Bool) :
      Fails w m (.jumpIf node count when)
        ⟨.typeMismatch .boolean (w.seen (World.operand (m.pop 1).1 0)), node⟩
  | finish {node : NodeId} {kind : ExceptionKind Value}
      (failed : m.finishNode w node = .error kind) : Fails w m (.finish node) ⟨kind, node⟩

theorem execute_fails {s : Step} {f : Failure} (h : m.execute w s = .error f) : Fails w m s f := by
  cases s with
  | start | check | jump => cases h
  | jumpIf node count when =>
    unfold Machine.execute branch at h
    dsimp only at h
    split at h
    · cases h
    · rename_i hbranch
      cases h
      split at hbranch
      · split at hbranch
        · split at hbranch <;> cases hbranch
        · cases hbranch
      · cases hbranch
        exact .jumpIf node count when
  | finish node =>
    unfold Machine.execute at h
    dsimp only at h
    split at h
    · cases h
    · cases h
      exact .finish ‹_›

/-- The effect of a step keeps what it can read, if the outcome of the node does. -/
theorem Only.execute (h : m.Only P S) (hnothing : P .nothing) (hp : w.pass.Only P) {s : Step}
    {streams : Streams}
    (hout : ∀ node o, s = .finish node → w.outcome m.evaluations m.current node
      (m.pop (w.tree.construct node).operandCount).1 = .ok o → o.Only P S)
    (hopened : ∀ kind node inputs, streams = (openStream w kind node inputs).2 →
      P (.stream (openStream w kind node inputs).1))
    (he : m.execute w s = .ok (m', streams)) : m'.Only P S := by
  cases executes he with
  | start node => exact h.startNode hp node
  | check node => exact h.checkReaction hp node
  | jump node count => exact h.skip count
  | jumpIf branched => exact h.branch hp hnothing branched
  | @finish node o m1 _ outcome performed =>
    have h1 := (h.pop hnothing _).2.perform (hout node o rfl outcome)
      (fun kind inputs => hopened kind node inputs) performed
    split
    · rename_i hi
      refine h1.remember w _ fun hnil => ?_
      simp [inProgram, hnil] at hi
    · exact h1

/-! ## Leaving frames -/

/-- What is remembered is kept in the memory only. -/
theorem remember_eq (m : Machine) (w : World) (node : NodeId) :
    ∃ memo, m.remember w node = { m with memo } := by
  unfold remember
  split
  · split
    · exact ⟨_, rfl⟩
    · exact ⟨m.memo, rfl⟩
  · exact ⟨m.memo, rfl⟩

theorem rememberCall_eq (m : Machine) (w : World) (caller : Frame) :
    ∃ memo, m.rememberCall w caller = { m with memo } := by
  unfold rememberCall
  split
  · exact ⟨m.memo, rfl⟩
  · split
    · exact m.remember_eq w _
    · exact ⟨m.memo, rfl⟩

/-- Leaving frames changes the frames, how the pass stands, its result and what is remembered. -/
theorem leave_eq (w : World) (f : Frame) (rest : List Frame) (m : Machine) :
    ∃ frames status result memo,
      leave w f rest m = { m with frames, status, result, memo } := by
  induction rest generalizing f m with
  | nil =>
    unfold leave
    split <;> exact ⟨_, _, _, _, rfl⟩
  | cons caller rest ih =>
    unfold leave
    split
    · dsimp only
      obtain ⟨memo, hmemo⟩ := rememberCall_eq
        { m with frames := caller.push (m.frameResult w f) :: rest } w
        (caller.push (m.frameResult w f))
      rw [hmemo]
      split <;>
      · obtain ⟨_, _, _, _, heq⟩ := ih (caller.push (m.frameResult w f)) _
        rw [heq]
        exact ⟨_, _, _, _, rfl⟩
    · exact ⟨_, _, _, _, rfl⟩

theorem settle_eq (m : Machine) (w : World) :
    ∃ frames status result memo, m.settle w = { m with frames, status, result, memo } := by
  unfold settle
  split
  · exact leave_eq w _ _ m
  · exact ⟨_, _, _, _, rfl⟩

theorem Only.rememberCall (h : m.Only P S) (hne : m.frames ≠ []) (caller : Frame) :
    (m.rememberCall w caller).Only P S := by
  unfold Machine.rememberCall
  split
  · exact h
  · split
    · exact h.remember w _ hne
    · exact h

/-- What the frame gives satisfies `P`, whatever values with `P` are on it. -/
def GivesOnly (P : Value → Prop) (w : World) (m : Machine) (f : Frame) : Prop :=
  ∀ values, (∀ v ∈ values, P v) → P (m.frameResult w { f with values })

/-- The result, if there is one, satisfies `P`. -/
def ResultOnly (P : Value → Prop) (m : Machine) : Prop := ∀ v, m.result = some v → P v

theorem Only.leave {rest : List Frame} {f : Frame} (h : m.Only P S)
    (hr : ∀ g ∈ f :: rest, m.GivesOnly P w g) (hf : ∀ v ∈ f.values, P v)
    (hrest : ∀ g ∈ rest, ∀ v ∈ g.values, P v) :
    (leave w f rest m).Only P S ∧ (m.ResultOnly P → (leave w f rest m).ResultOnly P) := by
  induction rest generalizing f m with
  | nil =>
    unfold Machine.leave
    split
    · refine ⟨⟨fun _ hg => absurd hg List.not_mem_nil, h.evaluations, h.reactions, h.memo⟩, ?_⟩
      rintro - v ⟨⟩
      exact hr f (by simp) f.values hf
    · exact ⟨⟨by simpa using hf, h.evaluations, h.reactions, h.memo⟩, id⟩
  | cons caller rest ih =>
    unfold Machine.leave
    split
    · have hresult : P (m.frameResult w f) := hr f (by simp) f.values hf
      have hcaller : ∀ v ∈ (caller.push (m.frameResult w f)).values, P v := by
        intro v hv
        rcases List.mem_cons.1 hv with rfl | hv
        · exact hresult
        · exact hrest caller (by simp) v hv
      have hothers : ∀ g ∈ rest, ∀ v ∈ g.values, P v := fun g hg => hrest g (by simp [hg])
      have hm : ({ m with frames := caller.push (m.frameResult w f) :: rest } : Machine).Only P S :=
        ⟨List.forall_mem_cons.2 ⟨hcaller, hothers⟩, h.evaluations, h.reactions, h.memo⟩
      have hg : ∀ g ∈ caller.push (m.frameResult w f) :: rest, m.GivesOnly P w g := by
        intro g hg
        rcases List.mem_cons.1 hg with rfl | hg
        · exact hr caller (by simp)
        · exact hr g (by simp [hg])
      dsimp only
      split
      · obtain ⟨memo, hmemo⟩ := rememberCall_eq
          { m with frames := caller.push (m.frameResult w f) :: rest } w
          (caller.push (m.frameResult w f))
        have hcall := hm.rememberCall (w := w) (by simp) (caller.push (m.frameResult w f))
        rw [hmemo] at hcall ⊢
        exact ih hcall hg hcaller hothers
      · exact ih hm hg hcaller hothers
    · exact ⟨⟨List.forall_mem_cons.2 ⟨hf, hrest⟩, h.evaluations, h.reactions, h.memo⟩, id⟩

/-- Leaving the frames that are done keeps what the machine contains. -/
theorem Only.settle (h : m.Only P S) (hr : ∀ g ∈ m.frames, m.GivesOnly P w g) :
    (m.settle w).Only P S ∧ (m.ResultOnly P → (m.settle w).ResultOnly P) := by
  unfold Machine.settle
  split
  · rename_i f rest hf
    rw [hf] at hr
    exact Only.leave h hr (h.values f (by simp [hf])) fun g hg => h.values g (by simp [hf, hg])
  · exact ⟨h, id⟩

end Machine
end ReactiveLang
