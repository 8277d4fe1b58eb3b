import ReactiveLang.Proofs.Eval.Progress
import ReactiveLang.Proofs.Eval.Retaking

/-!
# A run again

`m.after w n` is the machine after `n` steps in one world. `m.Retraces w count steps` says that
these are the steps of a run that was logged, and that none of them changes the streams.

* `Retraces.known`, `Retraces.index`: what every machine of such a run has.
* `Retraces.again`, `Retraces.after_again`: streams that have grown do not change the run.
-/

namespace ReactiveLang.Machine

/-- The machine after so many steps in a world. -/
def after (w : World) (m : Machine) : Nat → Machine
  | 0 => m
  | n + 1 =>
    match (m.after w n).step w with
    | some (_, m', _) => m'
    | none => m.after w n

/-- The first `count` steps are those given, and the streams have all that they open. -/
def Retraces (w : World) (m : Machine) (count : Nat) (steps : Nat → Option Step) : Prop :=
  ∀ i < count, ∃ s, steps i = some s ∧
    (m.after w i).step w = some (s, m.after w (i + 1), w.streams)

variable {w : World} {m : Machine} {count : Nat} {steps : Nat → Option Step}

theorem after_succ {n : Nat} {s : Step} {m' : Machine} {streams : Streams}
    (h : (m.after w n).step w = some (s, m', streams)) : m.after w (n + 1) = m' := by
  rw [after, h]

/-- One more step of a run. -/
theorem Retraces.snoc (h : m.Retraces w count steps) {s : Step} {m' : Machine}
    (hs : steps count = some s) (hstep : (m.after w count).step w = some (s, m', w.streams)) :
    m.Retraces w (count + 1) steps := by
  intro i hi
  rcases Nat.lt_succ_iff_lt_or_eq.1 hi with hi | rfl
  · exact h i hi
  · exact ⟨s, hs, by rw [after_succ hstep, hstep]⟩

theorem Retraces.congr {steps' : Nat → Option Step} (h : m.Retraces w count steps)
    (hs : ∀ i < count, steps' i = steps i) : m.Retraces w count steps' := by
  intro i hi
  obtain ⟨s, h1, h2⟩ := h i hi
  exact ⟨s, (hs i hi).trans h1, h2⟩

theorem Retraces.index (h : m.Retraces w count steps) {i : Nat} (hi : i ≤ count) :
    (m.after w i).index = m.index + i := by
  induction i with
  | zero => rfl
  | succ i ih =>
    obtain ⟨s, -, hs⟩ := h i hi
    rw [(step_isLive hs).2, ih (Nat.le_of_lt hi), Nat.add_assoc]

theorem Retraces.isLive (h : m.Retraces w count steps) (hm : m.IsLive) {i : Nat} (hi : i ≤ count) :
    (m.after w i).IsLive := by
  cases i with
  | zero => exact hm
  | succ i =>
    obtain ⟨s, -, hs⟩ := h i hi
    exact (step_isLive hs).1

/-- Only the last machine can be finished. -/
theorem Retraces.not_isFinished (h : m.Retraces w count steps) (hm : m.IsLive) {i : Nat}
    (hi : i < count) : (m.after w i).isFinished = false := by
  obtain ⟨s, -, hs⟩ := h i hi
  exact (h.isLive hm (Nat.le_of_lt hi)).not_isFinished hs

/-- The machines of a run know only the streams that are there. -/
theorem Retraces.known (h : m.Retraces w count steps) (hr : w.streams.Regular)
    (hm : m.Holds (Handle.Known w.streams.size)) (hp : w.pass.Holds (Handle.Known w.streams.size))
    {i : Nat} (hi : i ≤ count) : (m.after w i).Holds (Handle.Known w.streams.size) := by
  induction i with
  | zero => exact hm
  | succ i ih =>
    obtain ⟨s, -, hs⟩ := h i hi
    exact step_known (ih (Nat.le_of_lt hi)) hp hr hs

section
variable {later : Streams} (h : m.Retraces w count steps) (hr : w.streams.Regular)
  (hm : m.Holds (Handle.Known w.streams.size)) (hp : w.pass.Holds (Handle.Known w.streams.size))
  (hx : w.streams.Extends later w.pass.number)
include h hr hm hp hx

/-- The machines of a run are the same over streams that have grown. -/
theorem Retraces.after_again {i : Nat} (hi : i ≤ count) :
    m.after (w.again later) i = m.after w i := by
  induction i with
  | zero => rfl
  | succ i ih =>
    obtain ⟨s, -, hs⟩ := h i hi
    have hk := h.known hr hm hp (Nat.le_of_lt hi)
    have ha := step_again hk hp hr hs hx
    rw [← ih (Nat.le_of_lt hi)] at ha
    exact after_succ ha

/-- The run is the same over streams that have grown. -/
theorem Retraces.again : m.Retraces (w.again later) count steps := by
  intro i hi
  obtain ⟨s, h1, hs⟩ := h i hi
  have hk := h.known hr hm hp (Nat.le_of_lt hi)
  refine ⟨s, h1, ?_⟩
  rw [h.after_again hr hm hp hx (Nat.le_of_lt hi), h.after_again hr hm hp hx hi]
  exact step_again hk hp hr hs hx

end

end ReactiveLang.Machine
