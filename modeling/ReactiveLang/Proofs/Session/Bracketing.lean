import ReactiveLang.Proofs.Eval.Bracketing
import ReactiveLang.Proofs.Session.Discipline

/-!
# Brackets in the log

Each step in the log has been taken by a machine, which says which frames were there and whether a
value was reused (`Session.events`). In every pass of a session the brackets of these events are
properly nested, each call in one piece; a pass that has failed has left some of them open
(`trace_bracketed`).
-/

namespace ReactiveLang.Session

open Machine

variable (s : Session)

/-- The steps of a pass in the log. -/
def segment (place : Nat) : List Step :=
  (s.log.toList.drop (s.record place).start).take (s.length place)

/-- The steps of a pass, each as an event of the machine that has taken it. -/
def events (place : Nat) : List Event :=
  (s.segment place).mapIdx fun i step => (s.machineAt place i).event (s.world place) step

theorem map_step_events (place : Nat) : (s.events place).map Event.step = s.segment place := by
  refine List.ext_getElem? fun i => ?_
  rw [List.getElem?_map, events, List.getElem?_mapIdx, Option.map_map]
  exact Option.map_id_apply

variable {s}

/-- The steps so far have properly nested brackets, as far as they go. -/
theorem Sound.nested (h : s.Sound) (hf : s.Finished) (hin : s.InTree) {k : Nat}
    (hk : k < s.passes.size) {i : Nat} (hi : i ≤ s.length k) :
    (s.machineAt k i).Nested s.program.tree ((s.events k).take i) := by
  have hw := h.ready hf hin hk
  induction i with
  | zero => exact nested_start hf.code
  | succ i ih =>
    obtain ⟨st, hlog, hstep⟩ := (h.passes k hk).retraces i hi
    have hsegment : (s.segment k)[i]? = some st := by
      rw [segment, List.getElem?_take_of_lt hi, List.getElem?_drop, Array.getElem?_toList]
      exact hlog
    have hevent : (s.events k)[i]? = some ((s.machineAt k i).event (s.world k) st) := by
      rw [events, List.getElem?_mapIdx, hsegment]
      rfl
    obtain ⟨hinside, -⟩ := h.machineAt_inside hf hk (hin k hk) (Nat.le_of_succ_le hi)
    rw [List.take_add_one, hevent]
    exact (ih (Nat.le_of_succ_le hi)).step hw hinside hstep

/-- The trace is well bracketed, after any commands. The steps of a pass that is completed form
properly nested brackets, in which the steps of each call follow the finish of the node that calls;
those of any other pass, be it under way or failed, can be continued to such. -/
theorem trace_bracketed {d : Draft} {root : NodeId} {t : Tree} {config : Config} {s : Session}
    (ht : d.finish root = .ok t) (hs : Session.start t config = .ok s) (commands : List Command) :
    let now := s.after commands
    ∀ place < now.passes.size, (now.events place).map Event.step = now.segment place ∧
      let last := now.machineAt place (now.length place)
      (last.status = .completed →
        Bracketed t [.root] 1 (now.events place) last.evaluations.size) ∧
      ∃ rest calls, Bracketed t [.root] 1 (now.events place ++ rest) calls := by
  intro now place hplace
  obtain ⟨hnow, hf, hin, hprogram⟩ := start_after ht hs commands
  have htree : now.program.tree = t := congrArg Program.tree hprogram
  have hnested := hnow.nested hf hin hplace (Nat.le_refl _)
  have hall : (now.events place).take (now.length place) = now.events place := by
    refine List.take_of_length_le ?_
    rw [events, List.length_mapIdx, segment]
    exact List.length_take_le _ _
  rw [htree, hall] at hnested
  refine ⟨now.map_step_events place, ?_⟩
  intro last
  refine ⟨fun hcompleted => ?_, ?_⟩
  · have hlive : last.IsLive := hnow.isLive_machineAt hplace (Nat.le_refl _)
    have hfinished : last.isFinished = true := by simp [Machine.isFinished, hcompleted]
    obtain ⟨-, hnone⟩ | ⟨hnot, -⟩ := hlive
    · cases hnested with
      | going frames pending =>
        rw [hnone] at frames
        cases frames
        cases pending
      | done _ block => exact block
      | failed _ status _ =>
        rw [hcompleted] at status
        cases status
    · rw [hfinished] at hnot
      cases hnot
  · cases hnested with
    | going _ pending => exact pending.exists_bracketed
    | done _ block => exact ⟨[], _, by rwa [List.append_nil]⟩
    | failed _ _ block => exact ⟨_, _, block⟩

/-- The pass of a program that calls a function with a conditional in its body. -/
theorem trace_bracketed_choice : Pass.choiceTree.edit.finish ⟨10⟩ = .ok Pass.choiceTree ∧
    ∃ s, Session.start Pass.choiceTree .default = .ok s ∧
      let now := s.after [.evaluate]
      let last := now.machineAt 0 (now.length 0)
      0 < now.passes.size ∧ last.status = .completed ∧
        Bracketed Pass.choiceTree [.root] 1 (now.events 0) last.evaluations.size := by
  have hs : Session.start Pass.choiceTree .default =
      .ok (ofProgram (Program.ofTree Pass.choiceTree .default)) :=
    start_eq (by decide) (by decide +kernel)
  let now := (ofProgram (Program.ofTree Pass.choiceTree .default)).after [.evaluate]
  have hplace : 0 < now.passes.size := by decide +kernel
  have hcompleted : (now.machineAt 0 (now.length 0)).status = .completed := by decide +kernel
  exact ⟨Pass.finish_choice, _, hs, hplace, hcompleted,
    (trace_bracketed Pass.finish_choice hs [.evaluate] 0 hplace).2.1 hcompleted⟩

end ReactiveLang.Session
