import ReactiveLang.Proofs.Eval.Agreement
import ReactiveLang.Proofs.Eval.Yielding

/-!
# A machine is going or it has ended

A machine that is going has no result and has a next step; one that has ended has a result and no
frames, and takes no step. `Reached` gives all machines that the passes of a program come to.

* `settle_stage`, `step_stage`: what a step leaves is going, is completed with a value, or has
  failed.
* `Reached.holds`: no failure is inside a value that later steps can read.
* `reached_consistent`: status, frames, result and next step agree, in every machine that is
  reached.
-/

namespace ReactiveLang

theorem Handle.Known.ne_failure {n : Nat} {h : Handle} (hk : h.Known n) : h ≠ .failure := by
  rintro rfl
  exact hk

namespace Machine

variable {m m' : Machine} {w : World} {streams : Streams}

/-! ## Stages of a pass -/

/-- Where a pass is that has taken a step: under way, at its end with a value, or at its end with a
failure. -/
inductive Stage (m : Machine) : Prop where
  | going {f : Frame} {rest : List Frame} (status : m.status = .running) (result : m.result = none)
      (frames : m.frames = f :: rest) (next : f.isDone = false)
  | completed {v : Value} (status : m.status = .completed) (result : m.result = some v)
      (frames : m.frames = []) (clean : v.Holds (· ≠ .failure))
  | failed {f : Failure} (status : m.status = .exception) (result : m.result = some f.toValue)
      (frames : m.frames = [])

/-- Frames are left until one is not done; the last one that is left gives the result. -/
theorem leave_stage (hw : w.streams.Regular) {f : Frame} {rest : List Frame}
    (hm : m.Holds (· ≠ .failure)) (hf : ∀ v ∈ f.values, v.Holds (· ≠ .failure))
    (hrest : ∀ g ∈ rest, ∀ v ∈ g.values, v.Holds (· ≠ .failure))
    (hrun : m.status = .running) (hres : m.result = none) : (leave w f rest m).Stage := by
  induction rest generalizing f m with
  | nil =>
    unfold leave
    split
    · exact .completed rfl rfl rfl (frameResult_holds hw.holds hm Handle.noConfusion hf)
    · rename_i hd
      exact .going hrun hres rfl (by simpa using hd)
  | cons caller rest ih =>
    unfold leave
    split
    · have hret := returned_holds hw.holds hm Handle.noConfusion hf hrest
      have hvals := List.forall_mem_cons.1 hret.values
      obtain ⟨memo, hmemo⟩ := rememberCall_eq
        { m with frames := caller.push (m.frameResult w f) :: rest } w
        (caller.push (m.frameResult w f))
      have hrem := rememberCall_holds (w := w) hret (by simp) (caller.push (m.frameResult w f))
      dsimp only
      split
      · rw [hmemo] at hrem ⊢
        exact ih hrem hvals.1 hvals.2 hrun hres
      · exact ih hret hvals.1 hvals.2 hrun hres
    · rename_i hd
      exact .going hrun hres rfl (by simpa using hd)

theorem settle_stage (hw : w.streams.Regular) (hm : m.Holds (· ≠ .failure))
    (hrun : m.status = .running) (hres : m.result = none) (hne : m.frames ≠ []) :
    (m.settle w).Stage := by
  unfold settle
  split
  · rename_i f rest hf
    exact leave_stage hw hm (hm.values f (by simp [hf]))
      (fun g hg => hm.values g (by simp [hf, hg])) hrun hres
  · rename_i hn
    exact absurd hn hne

/-- A step of a machine without a result leaves one that goes on or has ended. -/
theorem step_stage (h : m.Holds (Handle.Known w.streams.size))
    (hp : w.pass.Holds (Handle.Known w.streams.size)) (hr : w.streams.Regular)
    (hres : m.result = none) {s : Step} (hs : m.step w = some (s, m', streams)) : m'.Stage := by
  obtain ⟨hx, hr'⟩ := step_streams hs
  have hle := Handle.Known.mono (hx 0).size_le
  obtain ⟨hn, ⟨f, -, rfl, -⟩ | ⟨m1, he, rfl⟩⟩ := step_cases hs
  · exact .failed rfl rfl rfl
  · obtain ⟨-, hrun, hkeep⟩ := sameStep_advanced m
    have hsame := sameStep_execute he
    have hknown := execute_known (h.mono hle).advanced (hp.mono hle) hr (Nat.le_refl _) he
    refine settle_stage (w := { w with streams }) (hr' hr) (hknown.mono fun _ => Handle.Known.ne_failure)
      (hsame.status.trans hrun) ?_ (hsame.frames (hkeep (frames_ne_nil_of_next? hn)))
    rw [← hres, ← (sameGiven_advanced m).result]
    obtain ⟨hgiven, -⟩ | ⟨node, o, -, -, hgiven, -⟩ := execute_given he
    · exact hgiven.result
    · exact hgiven

/-! ## All machines of a program -/

/-- The machines that a program comes to, each with its pass, the number of steps it has taken and
the streams. A pass begins with nothing, or with values that a machine of an earlier pass has kept.
The streams may get values at any time. -/
inductive Reached (p : Program) : Pass → Nat → Machine → Streams → Prop where
  | first {pass : Pass} (memo : pass.memo = []) (reactions : pass.reactions = []) :
      Reached p pass 0 (start p) .empty
  | step {pass : Pass} {n : Nat} {m m' : Machine} {streams streams' : Streams} {replaying : Bool}
      {s : Step} (before : Reached p pass n m streams)
      (taken : m.step ⟨p, pass, streams, replaying⟩ = some (s, m', streams')) :
      Reached p pass (n + 1) m' streams'
  | tick {pass : Pass} {n : Nat} {m : Machine} {streams : Streams} (now : Float) (next : Nat)
      (before : Reached p pass n m streams) : Reached p pass n m (streams.tick now next).2
  | next {pass pass' : Pass} {n : Nat} {m : Machine} {streams : Streams}
      (before : Reached p pass n m streams) (memo : pass'.memo ⊆ m.memo)
      (reactions : pass'.reactions ⊆ m.reactions) : Reached p pass' 0 (start p) streams

namespace Reached

variable {p : Program} {pass : Pass} {n : Nat}

/-- No machine and no pass points to a stream that is not there, or to a failure. -/
theorem known (h : Reached p pass n m streams) : streams.Regular ∧
    m.Holds (Handle.Known streams.size) ∧ pass.Holds (Handle.Known streams.size) := by
  induction h with
  | first memo reactions =>
    exact ⟨Streams.regular_empty, holds_start p, by rw [memo]; exact nofun,
      by rw [reactions]; exact nofun⟩
  | step _ taken ih =>
    obtain ⟨hr, hm, hp⟩ := ih
    obtain ⟨hx, hr'⟩ := step_streams taken
    exact ⟨hr' hr, step_known hm hp hr taken, hp.mono (Handle.Known.mono (hx 0).size_le)⟩
  | @tick _ _ _ streams now next _ ih =>
    obtain ⟨hr, hm, hp⟩ := ih
    rw [show (streams.tick now next).2.size = streams.size by simp [Streams.tick, Streams.size]]
    exact ⟨hr.tick now next, hm, hp⟩
  | next _ memo reactions ih =>
    obtain ⟨hr, hm, -⟩ := ih
    exact ⟨hr, holds_start p, fun e he => hm.memo e (memo he),
      fun e he => hm.reactions e (reactions he)⟩

theorem index_eq (h : Reached p pass n m streams) : m.index = n := by
  induction h with
  | first => rfl
  | step _ taken ih => rw [(step_isLive taken).2, ih]
  | tick _ _ _ ih => exact ih
  | next => rfl

theorem isLive (hp : (start p).IsLive) (h : Reached p pass n m streams) : m.IsLive := by
  induction h with
  | first => exact hp
  | step _ taken => exact (step_isLive taken).1
  | tick _ _ _ ih => exact ih
  | next => exact hp

/-- A machine that is reached is at the start, or in a stage of the pass. -/
theorem stage (h : Reached p pass n m streams) : n = 0 ∧ m = start p ∨ 0 < n ∧ m.Stage := by
  induction h with
  | first => exact .inl ⟨rfl, rfl⟩
  | @step _ _ m _ _ _ _ _ before taken ih =>
    obtain ⟨hr, hm, hp⟩ := before.known
    refine .inr ⟨Nat.succ_pos _, step_stage hm hp hr ?_ taken⟩
    have hne := frames_ne_nil_of_next? (step_cases taken).1
    obtain ⟨-, rfl⟩ | ⟨-, hstage⟩ := ih
    · rfl
    · cases hstage with
      | going _ result _ _ => exact result
      | completed _ _ frames _ => exact absurd frames hne
      | failed _ _ frames => exact absurd frames hne
  | tick _ _ _ ih => exact ih
  | next => exact .inl ⟨rfl, rfl⟩

/-- The machines of a run are reached. -/
theorem run (h : Reached p pass n m streams) (k : Nat) :
    ∃ n', Reached p pass n' (Pass.run p pass k (m, streams)).1
      (Pass.run p pass k (m, streams)).2 := by
  induction k generalizing n m streams with
  | zero => exact ⟨n, h⟩
  | succ k ih =>
    unfold Pass.run
    split
    · rename_i hs
      exact ih (h.step hs)
    · exact ⟨n, h⟩

end Reached

/-! ## Status, frames, result and next step agree -/

/-- Where a machine takes no step, it stays as it is. -/
theorem after_of_next? (h : m.next? = none) (k : Nat) : m.after w k = m := by
  induction k with
  | zero => rfl
  | succ k ih => rw [after, ih, step_eq_none_iff.2 h]

/-- A value that points to no failure is none. -/
theorem ne_exception_of_clean {v : Value} (h : v.Holds (· ≠ .failure)) (kind : ExceptionKind Value)
    (node : NodeId) : v ≠ .exception kind node := by
  rintro rfl
  exact h .failure (by simp [Value.handles]) rfl

/-- Status, frames, result and next step agree in every machine that a program reaches: it is ready
before its first step only; it has frames and a next step until it ends, and then it has a result
and stays as it is. The result is an exception if the status says so, and nothing else holds one. -/
theorem reached_consistent {d : Draft} {root : NodeId} {t : Tree} {config : Config}
    (ht : d.finish root = .ok t) {pass : Pass} {n : Nat}
    (hr : Reached (Program.ofTree t config) pass n m streams) :
    let ended := m.status = .completed ∨ m.status = .exception
    m.index = n ∧ (m.status = .ready ↔ n = 0) ∧
    (m.frames = [] ↔ ended) ∧ (m.result.isSome ↔ ended) ∧ (m.next? = none ↔ ended) ∧
    (ended → ∀ w, m.step w = none ∧ ∀ k, m.after w k = m) ∧
    ((∃ kind node, m.result = some (.exception kind node)) ↔ m.status = .exception) ∧
    m.Holds (· ≠ .failure) ∧ pass.Holds (· ≠ .failure) := by
  intro ended
  obtain ⟨-, hm, hp⟩ := hr.known
  have hlive : m.IsLive := by
    refine hr.isLive (start_isLive ?_)
    show 0 < ((Code.ofTree t).ofNode t.root).size
    rw [Code.ofNode_ofTree, List.size_toArray]
    exact (Draft.finish_wellFormed ht).code_length_pos t.root
  have hnext : m.next? = none ↔ ended := by
    rw [hlive.next?_eq_none_iff]
    simp [isFinished, ended]
  have hstay : ended → ∀ w, m.step w = none ∧ ∀ k, m.after w k = m := fun he w =>
    ⟨step_eq_none_iff.2 (hnext.2 he), after_of_next? (hnext.2 he)⟩
  have hstage : (m.status = .ready ↔ n = 0) ∧ (m.frames = [] ↔ ended) ∧
      (m.result.isSome ↔ ended) ∧
      ((∃ kind node, m.result = some (.exception kind node)) ↔ m.status = .exception) := by
    obtain ⟨hn, rfl⟩ | ⟨hn, hstage⟩ := hr.stage
    · simp [start, ended, hn]
    · have hn' : n ≠ 0 := Nat.ne_of_gt hn
      cases hstage with
      | going status result frames _ => simp [status, result, frames, hn', ended]
      | completed status result frames clean =>
        simp [status, result, frames, hn', ended, ne_exception_of_clean clean]
      | failed status result frames => simp [status, result, frames, hn', ended, Failure.toValue]
  obtain ⟨hready, hframes, hresult, hexception⟩ := hstage
  exact ⟨hr.index_eq, hready, hframes, hresult, hnext, hstay, hexception,
    hm.mono fun _ => Handle.Known.ne_failure, hp.mono fun _ => Handle.Known.ne_failure⟩

/-- A program that calls a definition comes to its end, after which there is no step. -/
theorem reached_consistent_choice : Pass.choiceTree.edit.finish ⟨10⟩ = .ok Pass.choiceTree ∧
    ∃ n, ∃ c : Machine × Streams, Reached (.ofTree Pass.choiceTree .default) .first n c.1 c.2 ∧
      c.1.status = .completed ∧ c.1.frames = [] ∧ c.1.result.isSome ∧ c.1.next? = none ∧
      ∀ w, c.1.step w = none := by
  let p := Program.ofTree Pass.choiceTree .default
  have hbegin : Reached p .first 0 (start p) .empty := .first rfl rfl
  obtain ⟨n, hr⟩ := hbegin.run 30
  have hend : (Pass.run p .first 30 (start p, .empty)).1.status = .completed := by decide +kernel
  generalize Pass.run p .first 30 (start p, .empty) = c at hr hend
  obtain ⟨-, -, hframes, hresult, hnext, hstay, -⟩ :=
    reached_consistent Pass.finish_choice hr
  exact ⟨Pass.finish_choice, n, c, hr, hend, hframes.2 (.inl hend), hresult.2 (.inl hend),
    hnext.2 (.inl hend), fun w => (hstay (.inl hend) w).1⟩

end Machine
end ReactiveLang
