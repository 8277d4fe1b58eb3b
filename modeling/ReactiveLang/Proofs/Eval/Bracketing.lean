import Mathlib.Data.List.Forall2
import ReactiveLang.Proofs.Eval.Brackets
import ReactiveLang.Proofs.Eval.Progress
import ReactiveLang.Proofs.Eval.Reaching

/-!
# The brackets of a run

`Machine.Nested t m events`: the events of the steps that have led to the machine have properly
nested brackets, as far as they go. A machine that is going has the brackets open that the places of
its frames say; one that is done has none open; and those of one that has failed could be closed.

* `Nested.step`: one more step keeps that true.
-/

namespace ReactiveLang

/-- The frame of an evaluation is in the code of some nodes of the tree, one after the other, at a
place where these brackets are open. -/
structure Frame.Opens (t : Tree) (f : Frame) (opened : Opened) : Prop where
  evaluation : f.evaluation = opened.1
  within : ∃ nodes : List NodeId, (∀ node ∈ nodes, t.Reaches node) ∧
    f.steps.toList = nodes.flatMap t.code ∧ t.WithinIn nodes f.position opened.2

namespace Frame

variable {t : Tree} {f : Frame} {e : EvaluationId} {opens : List NodeId}

theorem Opens.push {opened : Opened} (h : f.Opens t opened) (v : Value) :
    (f.push v).Opens t opened := ⟨h.evaluation, h.within⟩

/-- A frame that is done has no bracket open; else its next step turns the brackets. -/
theorem Opens.turning (hw : t.WellFormed) (h : f.Opens t (e, opens)) :
    (f.isDone = true ∧ opens = []) ∨ ∃ step, f.next? = some step ∧ t.Reaches step.node ∧
      ∀ {skip takes leaves : Nat}, t.Moves step skip takes leaves →
        ∃ opens', step.Turns (step.reuses leaves) opens opens' ∧
          ∀ values, (f.moved skip takes values).Opens t (e, opens') := by
  obtain ⟨hevaluation, nodes, hr, hsteps, hplace⟩ := h
  obtain ⟨hend, hnone⟩ | ⟨step, hturning⟩ := hplace.turning hw hr
  · have hsize : f.steps.size = f.position := by rw [← Array.length_toList, hsteps, ← hend]
    exact .inl ⟨decide_eq_true (Nat.le_of_eq hsize), hnone⟩
  · refine .inr ⟨step, ?_, hturning.reaches, fun hm => ?_⟩
    · rw [next?, ← Array.getElem?_toList, hsteps]
      exact hturning.there
    · obtain ⟨opens', hturns, hnext⟩ := hturning.moves hm
      exact ⟨opens', hturns, fun _ => ⟨hevaluation, nodes, hr, hsteps, hnext⟩⟩

theorem Opens.moves (hw : t.WellFormed) (h : f.Opens t (e, opens)) {s : Step}
    (hn : f.next? = some s) : t.Reaches s.node ∧
      ∀ {skip takes leaves : Nat}, t.Moves s skip takes leaves →
        ∃ opens', s.Turns (s.reuses leaves) opens opens' ∧
          ∀ values, (f.moved skip takes values).Opens t (e, opens') := by
  obtain ⟨hd, -⟩ | ⟨step, hstep, hmoves⟩ := h.turning hw
  · rw [isDone_of_next? hn] at hd
    cases hd
  · obtain rfl : step = s := Option.some.inj (hstep.symm.trans hn)
    exact hmoves

theorem map_evaluation {frames : List Frame} {stack : List Opened}
    (h : List.Forall₂ (Opens t) frames stack) :
    frames.map Frame.evaluation = stack.map Prod.fst := by
  induction h with
  | nil => rfl
  | cons hopens _ ih => rw [List.map_cons, List.map_cons, ih, hopens.evaluation]

end Frame

/-- The frame of a call begins with no bracket open. -/
theorem Frame.opens_call {w : World} {call : Call} (hw : w.program.code = Code.ofTree w.tree)
    (hr : w.tree.Reaches call.definition) (id : EvaluationId) :
    (call.frame w.program id).Opens w.tree (id, []) :=
  ⟨rfl, w.tree.calledNodes call.definition (call.provided w.tree),
    fun _ hn => hr.calledNode hn, call.frame_steps hw id, w.tree.withinIn_begin _ (Nat.zero_le _)⟩

/-- Only calls and conversions call. -/
theorem World.outcome_run {w : World} {es : Evaluations} {current : EvaluationId} {node : NodeId}
    {operands : List Value} {call : Call}
    (h : w.outcome es current node operands = .ok (.run call)) : w.tree.MayCall node := by
  unfold outcome at h
  dsimp only at h
  split at h
  all_goals first
    | cases h
    | exact .inl ⟨_, _, ‹_›⟩
    | exact .inr ⟨_, _, ‹_›⟩
    | (obtain ⟨v, -, hv⟩ := map_eq_ok h; cases hv)

namespace Machine

/-- A value of the pass before takes the place of the node that the step starts. -/
def reuses (w : World) (m : Machine) : Step → Bool
  | .start node => m.inProgram && (memoized? w node).isSome
  | _ => false

/-- The step as an event of the run. -/
def event (w : World) (m : Machine) (s : Step) : Event :=
  ⟨s, m.frames.map Frame.evaluation, m.reuses w s⟩

variable {m m' : Machine} {w : World} {s : Step} {streams : Streams} {f : Frame}
  {below : List Frame} {es : Evaluations} {t : Tree} {events : List Event}

/-! ## What a step does -/

theorem start_of_reuses (h : m.reuses w s = true) : ∃ node, s = .start node := by
  cases s with
  | start node => exact ⟨node, rfl⟩
  | _ => cases h

theorem Has.startNode_reuses (hw : Ready w) (h : m.Has (f :: below) es) (node : NodeId) :
    ∃ skip values, w.tree.Moves (.start node) skip 0 values.length ∧
      (Step.start node).reuses values.length = m.reuses w (.start node) ∧
      (m.advanced.startNode w node).Has (f.moved skip 0 values :: below) es := by
  have hlen : ∀ node, w.program.code.length node = (w.tree.code node).length := fun node => by
    rw [hw.code, Code.length_ofTree]
  have hcases := h.startNode_cases hlen hw.wellFormed.code_length_pos node
  rw [advanced_inProgram] at hcases
  obtain ⟨hnone, hm⟩ | ⟨v, halone, hv, hm⟩ := hcases
  · refine ⟨1, [], .start node, ?_, hm⟩
    cases halone : m.inProgram with
    | true => simp [Step.reuses, reuses, halone, hnone halone]
    | false => simp [Step.reuses, reuses, halone]
  · exact ⟨_, [v], .reuse node, by simp [Step.reuses, reuses, halone, hv], hm⟩

/-- A step is taken as `Tree.Moves` says for a value that is reused, or for none, or begins a call. -/
theorem execute_reuses (hw : Ready w) (h : m.Has (f :: below) es)
    (he : m.advanced.execute w s = .ok (m', streams)) :
    (∃ skip takes values es', w.tree.Moves s skip takes values.length ∧
      s.reuses values.length = m.reuses w s ∧
      m'.Has (f.moved skip takes values :: below) es' ∧ Named es f es') ∨
      BeginsCall w s f below es m' := by
  by_cases hstart : ∃ node, s = .start node
  · obtain ⟨node, rfl⟩ := hstart
    cases he
    obtain ⟨skip, values, hmoves, hreuses, hm⟩ := h.startNode_reuses hw node
    exact .inl ⟨skip, 0, values, es, hmoves, hreuses, hm, .inl rfl⟩
  · have hreuses : ∀ leaves, s.reuses leaves = m.reuses w s := by
      cases s with
      | start node => exact absurd ⟨node, rfl⟩ hstart
      | _ => exact fun _ => rfl
    obtain ⟨skip, takes, values, es', hmoves, hm⟩ | hcall :=
      execute_cases hw.wellFormed hw.code h he
    · exact .inl ⟨skip, takes, values, es', hmoves, hreuses _, hm⟩
    · exact .inr hcall

/-- Wherever a step goes on, there is a way for it to go. -/
theorem exists_moves (t : Tree) {s : Step} {reused : Bool}
    (h : reused = true → ∃ node, s = .start node) :
    ∃ skip takes leaves, t.Moves s skip takes leaves ∧ s.reuses leaves = reused := by
  have hnone : (∀ node, s ≠ .start node) → reused = false := fun hother =>
    Bool.eq_false_iff.2 fun hreused => by
      obtain ⟨node, hn⟩ := h hreused
      exact hother node hn
  cases s with
  | start node =>
    cases reused with
    | true => exact ⟨_, _, _, .reuse node, rfl⟩
    | false => exact ⟨_, _, _, .start node, rfl⟩
  | check node => exact ⟨_, _, _, .check node, (hnone nofun).symm⟩
  | jump node count => exact ⟨_, _, _, .jump node count, (hnone nofun).symm⟩
  | jumpIf node count when => exact ⟨_, _, _, .stay node count when, (hnone nofun).symm⟩
  | finish node =>
    obtain ⟨leaves, hm⟩ := t.exists_moves_finish node
    exact ⟨1, _, leaves, hm, (hnone nofun).symm⟩

/-! ## Traces of a run -/

/-- The steps that have led to the machine have properly nested brackets, as far as they go. -/
inductive Nested (t : Tree) (m : Machine) (events : List Event) : Prop where
  | going {stack : List Opened} (frames : List.Forall₂ (Frame.Opens t) m.frames stack)
      (pending : Pending t stack events m.evaluations.size)
  | done (frames : m.frames = []) (block : Bracketed t [.root] 1 events m.evaluations.size)
  | failed {rest : List Event} {n : Nat} (frames : m.frames = []) (status : m.status = .exception)
      (block : Bracketed t [.root] 1 (events ++ rest) n)

theorem nested_start {p : Program} (hcode : p.code = Code.ofTree p.tree) :
    (Machine.start p).Nested p.tree [] := by
  have hroot : ∀ node ∈ [p.tree.root], p.tree.Reaches node := by
    simpa using ⟨0, Tree.Level.root⟩
  refine .going (.cons ⟨rfl, [p.tree.root], hroot, ?_, ?_⟩ .nil) (.program (.nil _ _))
  · rw [hcode, Code.ofNode_ofTree, List.flatMap_singleton]
  · exact p.tree.withinIn_begin [p.tree.root] (Nat.zero_le _)

/-- When the frames that are done are left, their calls are blocks of the trace. -/
theorem Nested.settle (hw : t.WellFormed) {stack : List Opened}
    (hf : List.Forall₂ (Frame.Opens t) m.frames stack)
    (hp : Pending t stack events m.evaluations.size) : (m.settle w).Nested t events := by
  generalize hn : m.frames.length = n
  induction n generalizing m stack with
  | zero =>
    rw [List.length_eq_zero_iff.1 hn] at hf
    cases hf
    cases hp
  | succ n ih =>
    generalize hfr : m.frames = frames at hf hn
    cases hf with
    | nil => cases hn
    | @cons g opened below stack hopens hbelow =>
      obtain ⟨e, opens⟩ := opened
      obtain ⟨hd, rfl⟩ | ⟨step, hnext, -⟩ := hopens.turning hw
      · cases hbelow with
        | nil =>
          refine .done (settle_of_last hfr hd) ?_
          rw [settle_evaluations]
          exact hp.bracketed
        | @cons caller opened below stack hcaller hbelow =>
          obtain ⟨m1, v, hm, hsettle⟩ := settle_of_done (w := w) ⟨hfr, rfl⟩ hd
          rw [hsettle]
          have hframes : List.Forall₂ (Frame.Opens t) m1.frames (opened :: stack) := by
            rw [hm.frames]
            exact .cons (hcaller.push v) hbelow
          refine ih hframes ?_ ?_
          · rw [hm.evaluations]
            exact hp.leave
          · rw [hm.frames]
            exact Nat.succ.inj hn
      · rw [settle_of_next? hfr hnext]
        exact .going (hfr ▸ .cons hopens hbelow) hp

section
variable {stack : List Opened} {e : EvaluationId} {opens : List NodeId}
  (hw : Ready w) (hm : m.Has (f :: below) es)
  (hopens : f.Opens w.tree (e, opens)) (hbelow : List.Forall₂ (Frame.Opens w.tree) below stack)
  (hp : Pending w.tree ((e, opens) :: stack) events es.size)
include hw hm hopens hbelow hp

omit hw hp in
theorem event_eq : m.event w s = ⟨s, e :: stack.map Prod.fst, m.reuses w s⟩ := by
  rw [event, hm.frames, List.map_cons, Frame.map_evaluation hbelow, hopens.evaluation]

/-- A step that fails turns the brackets as if it had not failed. -/
theorem pending_fail (hn : f.next? = some s) :
    ∃ opens', Pending w.tree ((e, opens') :: stack) (events ++ [m.event w s]) es.size := by
  obtain ⟨-, hmoves⟩ := hopens.moves hw.wellFormed hn
  obtain ⟨skip, takes, leaves, hmove, hreused⟩ := exists_moves w.tree (start_of_reuses (w := w))
  obtain ⟨opens', hturns, -⟩ := hmoves hmove
  rw [hreused] at hturns
  rw [event_eq hm hopens hbelow]
  exact ⟨opens', hp.turn hturns⟩

/-- The effect of a step turns the brackets of the frame that runs, or begins a call. -/
theorem pending_execute (hin : m.InTree w.tree) (hn : f.next? = some s)
    (he : m.advanced.execute w s = .ok (m', streams)) :
    ∃ stack', List.Forall₂ (Frame.Opens w.tree) m'.frames stack' ∧
      Pending w.tree stack' (events ++ [m.event w s]) m'.evaluations.size := by
  obtain ⟨hreach, hmoves⟩ := hopens.moves hw.wellFormed hn
  rw [event_eq hm hopens hbelow]
  obtain ⟨skip, takes, values, es', hmove, hreused, hm', hnamed⟩ |
    ⟨node, call, rfl, hmove, ho, hm'⟩ := execute_reuses hw hm he
  · obtain ⟨opens', hturns, hnow⟩ := hmoves hmove
    rw [hreused] at hturns
    rw [hm'.frames, hm'.evaluations, hnamed.size]
    exact ⟨_, .cons (hnow values) hbelow, hp.turn hturns⟩
  · obtain ⟨opens', hturns, hnow⟩ := hmoves hmove
    have hcall := hin.call_reaches hw hreach rfl hm ho
    rw [hm'.frames, hm'.evaluations]
    cases hturns with
    | choice chooses => cases chooses
    | finish =>
      exact ⟨_, .cons (Frame.opens_call hw.code hcall _) (.cons (hnow []) hbelow),
        hp.enter (World.outcome_run ho)⟩

end

/-- One more step. -/
theorem Nested.step (hw : Ready w) (hin : m.InTree w.tree) (h : m.Nested w.tree events)
    (hs : m.step w = some (s, m', streams)) : m'.Nested w.tree (events ++ [m.event w s]) := by
  obtain ⟨hnext, hcase⟩ := step_cases hs
  obtain ⟨g, below, hfr, hn⟩ := frames_of_next? hnext
  cases h with
  | done frames _ | failed frames _ _ =>
    rw [hfr] at frames
    cases frames
  | going hopened hp =>
    rw [hfr] at hopened
    have hm : m.Has (g :: below) m.evaluations := ⟨hfr, rfl⟩
    cases hopened with
    | @cons _ opened _ stack hopens hbelow =>
      obtain ⟨failure, -, rfl, -⟩ | ⟨m1, he, rfl⟩ := hcase
      · obtain ⟨opens', hfailed⟩ := pending_fail hw hm hopens hbelow hp hn
        obtain ⟨rest, k, hrest⟩ := hfailed.exists_bracketed
        exact .failed rfl rfl hrest
      · obtain ⟨stack', hframes, hnow⟩ := pending_execute hw hm hopens hbelow hp hin hn he
        exact Nested.settle hw.wellFormed hframes hnow

end Machine
end ReactiveLang
