import ReactiveLang.Proofs.Eval.Agreement
import ReactiveLang.Proofs.Session.Navigation

/-!
# Running a session to its end

To run a session to its end is to run its newest pass (`Sound.evaluate_run`), and so it is for a pass
that has just been begun (`Sound.evaluate_begun`). The program stays the same under all commands
(`Host.after_program`).
-/

namespace ReactiveLang

namespace Session

variable {s : Session}

/-! ## Running to the end -/

/-- The state of the pass at the cursor. -/
def state (s : Session) : Machine × Streams := (s.machine, s.streams)

/-- New steps at the end of the log are those of the newest pass. -/
theorem Sound.runOut_run (h : s.Sound) (he : s.AtEnd) (fuel : Nat) :
    (Session.runOut fuel s).state =
      Pass.run s.program (s.record s.cursor).pass fuel s.state := by
  induction fuel generalizing s with
  | zero => rfl
  | succ fuel ih =>
    have hlive := h.isLive_machineAt h.newest_lt (Nat.le_refl _)
    rw [← h.atEnd_machine he] at hlive
    unfold Session.runOut
    obtain ⟨hf, hs⟩ | ⟨step, m, streams, hm, hs⟩ := h.step_atEnd he
    · rw [hs, Pass.run_done (hlive.next?_eq_none_iff.2 hf)]
    · obtain ⟨h', he'⟩ := h.stepped he hm
      obtain ⟨hprogram, hstreams, hcursor, hmachine, -⟩ := s.stepped_fields step m streams
      have hrest := ih h' he'
      rw [hprogram, hcursor, (s.stepped_record_fields step m streams _).2,
        show (s.stepped step m streams).state = (m, streams) from
          Prod.ext hmachine hstreams] at hrest
      rw [hs, Pass.run]
      dsimp only [state]
      rw [hm]
      exact hrest

/-- What `evaluate` comes to at the end of the log is the end of the newest pass. -/
theorem Sound.evaluate_run (h : s.Sound) (he : s.AtEnd) :
    let last := Pass.run s.program (s.record s.cursor).pass (s.program.config.maxSteps + 2) s.state
    s.evaluate.2.state = last ∧ s.evaluate.1 = last.1.result.getD .nothing := by
  obtain ⟨hsession, hvalue⟩ := h.evaluate_eq (.inr he)
  rw [h.atEnd_eq he] at hsession hvalue
  have hrun := h.runOut he (show _ ≤ s.program.config.maxSteps + 2 + _ from Nat.le_add_right _ _)
  have hstate := h.runOut_run he (s.program.config.maxSteps + 2)
  have hresult := hrun.sound.result
  dsimp only at hresult
  rw [← hrun.sound.atEnd_machine hrun.atEnd, hrun.finished] at hresult
  dsimp only
  refine ⟨by rw [hsession, hstate], ?_⟩
  rw [hvalue, hresult, ← hstate]
  rfl

/-- A pass that is begun at the end of the log runs to its end. -/
theorem Sound.evaluate_begun (h : s.Sound) (he : s.AtEnd) (hf : s.machine.isFinished = true)
    {pass : Pass} (hn : pass.number = s.passes.size) (hp : pass.Holds (Handle.Known s.streams.size))
    (hm : Recallable pass.memo) :
    let last := Pass.run s.program pass (s.program.config.maxSteps + 2)
      (Pass.begun s.program s.streams)
    (s.beginPass pass).evaluate.2.state = last ∧
      (s.beginPass pass).evaluate.1 = last.1.result.getD .nothing := by
  rw [h.atEnd_machine he] at hf
  have hrun := (h.beginPass hn hp hm hf).evaluate_run (s.atEnd_beginPass pass)
  rw [show (s.beginPass pass).cursor = s.passes.size from rfl, s.beginPass_record] at hrun
  exact hrun

/-! ## Programs stay the same -/

theorem Host.respond_program (h : s.Host) (command : Command) :
    (s.respond command).2.program = s.program := by
  cases command with
  | step =>
    obtain ⟨-, hs⟩ | ⟨-, -, hs⟩ | ⟨-, step, m, streams, -, hs⟩ := h.step_cases
    · show s.step.2.program = s.program
      rw [hs, h.sound.moveTo]
      rfl
    · show s.step.2.program = s.program
      rw [hs]
    · show s.step.2.program = s.program
      rw [hs]
      exact (s.stepped_fields step m streams).1
  | moveTo index =>
    show (s.moveTo index).program = s.program
    rw [h.sound.moveTo]
    rfl
  | moveBack count =>
    show (s.moveTo _).program = s.program
    rw [h.sound.moveTo]
    rfl
  | evaluate => exact (h.sound.evaluate (.inl h.begun)).program
  | tick now => rfl
  | react => exact (h.sound.react h.begun).2.2
  | restart => exact (h.renewed.sound.evaluate (.inl h.renewed.begun)).program
  | subscribe => rfl
  | unsubscribe => rfl
  | drain => rfl

theorem Host.after_program (h : s.Host) (commands : List Command) :
    (s.after commands).program = s.program := by
  induction commands generalizing s with
  | nil => rfl
  | cons command rest ih => exact (ih (h.respond command)).trans (h.respond_program command)

end Session
end ReactiveLang
