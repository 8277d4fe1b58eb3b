import ReactiveLang.Proofs.Eval.Steps

/-!
# A pass goes on until it is finished

* `Machine.IsLive`: a machine is finished, or has a frame that is not done on top. So there is a
  next step until the pass is finished (`IsLive.next?_eq_none_iff`).
* `step_isLive`: a step leaves a live machine, whose index is one more.
* `step_limit`: the step after the last that a pass may take finishes it.
-/

namespace ReactiveLang.Machine

variable {m m' : Machine} {w : World} {streams : Streams}

/-- The pass is finished, or the frame on top has a next step. -/
def IsLive (m : Machine) : Prop :=
  (m.isFinished = true ∧ m.frames = []) ∨
    (m.isFinished = false ∧ ∃ f rest, m.frames = f :: rest ∧ f.isDone = false)

theorem IsLive.next?_eq_none_iff (h : m.IsLive) : m.next? = none ↔ m.isFinished = true := by
  obtain ⟨hf, hn⟩ | ⟨hf, f, rest, hfr, hd⟩ := h
  · simp [Machine.next?, hn, hf]
  · have hlt : f.position < f.steps.size := by simpa [Frame.isDone] using hd
    simp [Machine.next?, Frame.next?, hfr, hf, hlt]

/-- A machine that takes a step is not finished. -/
theorem IsLive.not_isFinished (h : m.IsLive) {r : Step × Machine × Streams}
    (hs : m.step w = some r) : m.isFinished = false := by
  cases hf : m.isFinished with
  | false => rfl
  | true => rw [step_eq_none_iff.2 (h.next?_eq_none_iff.2 hf)] at hs; cases hs

/-- The next step is that of the frame that runs. -/
theorem frames_of_next? {s : Step} (h : m.next? = some s) :
    ∃ f below, m.frames = f :: below ∧ f.next? = some s := by
  unfold next? at h
  cases hf : m.frames with
  | nil =>
    rw [hf] at h
    cases h
  | cons f below =>
    rw [hf] at h
    exact ⟨f, below, rfl, h⟩

theorem frames_ne_nil_of_next? {s : Step} (h : m.next? = some s) : m.frames ≠ [] := by
  obtain ⟨f, below, hf, -⟩ := frames_of_next? h
  simp [hf]

/-! ## The effect of a step keeps the pass going -/

/-- `m'` is on in the same step of the pass as `m`, and has a frame that runs if `m` has one. -/
structure SameStep (m m' : Machine) : Prop where
  index : m'.index = m.index
  status : m'.status = m.status
  frames : m.frames ≠ [] → m'.frames ≠ []

theorem SameStep.refl (m : Machine) : SameStep m m := ⟨rfl, rfl, id⟩

theorem SameStep.trans {a b c : Machine} (h1 : SameStep a b) (h2 : SameStep b c) : SameStep a c :=
  ⟨h2.index.trans h1.index, h2.status.trans h1.status, fun h => h2.frames (h1.frames h)⟩

theorem sameStep_withFrame (m : Machine) (change : Frame → Frame) :
    SameStep m (m.withFrame change) := by
  unfold withFrame
  split
  · exact ⟨rfl, rfl, fun _ => by simp⟩
  · exact .refl _

theorem SameStep.skip {a b : Machine} (h : SameStep a b) (count : Nat) : SameStep a (b.skip count) :=
  h.trans (sameStep_withFrame b _)

theorem SameStep.push {a b : Machine} (h : SameStep a b) (v : Value) : SameStep a (b.push v) :=
  h.trans (sameStep_withFrame b _)

theorem SameStep.withMemo {a b : Machine} (h : SameStep a b) (memo : List (NodeId × Value)) :
    SameStep a { b with memo } :=
  ⟨h.index, h.status, h.frames⟩

theorem sameStep_pop (m : Machine) (count : Nat) : SameStep m (m.pop count).2 := by
  unfold pop
  split
  · exact ⟨rfl, rfl, fun _ => by simp⟩
  · exact .refl _

theorem sameStep_remember (m : Machine) (w : World) (node : NodeId) :
    SameStep m (m.remember w node) := by
  unfold remember
  split
  · split
    · exact (SameStep.refl m).withMemo _
    · exact .refl _
  · exact .refl _

theorem sameStep_startNode (m : Machine) (w : World) (node : NodeId) :
    SameStep m (m.startNode w node) := by
  obtain ⟨hstart, -⟩ | ⟨v, -, -, hstart⟩ := m.startNode_cases w node <;> rw [hstart]
  · exact .refl m
  · exact (((SameStep.refl m).skip _).withMemo _).push v

theorem sameStep_checkReaction (m : Machine) (w : World) (node : NodeId) :
    SameStep m (m.checkReaction w node) :=
  checkReaction_keeps node (.refl m) (fun _ _ _ => ⟨rfl, rfl, id⟩)
    fun _ _ h1 => h1.skip _

theorem sameStep_branch {node : NodeId} {count : Nat} {when : Bool}
    (h : m.branch w node count when = .ok m') : SameStep m m' := by
  have hp := sameStep_pop m 1
  obtain ⟨b, -, ⟨-, rfl⟩ | ⟨-, -, rfl⟩ | ⟨-, -, rfl⟩⟩ := branch_cases h
  · exact hp
  · exact hp.skip count
  · exact (hp.skip count).push _

theorem sameStep_perform {node : NodeId} {o : Outcome}
    (h : m.perform w node o = .ok (m', streams)) : SameStep m m' := by
  cases o with
  | keep => cases h; exact .refl _
  | value v => cases h; exact (SameStep.refl m).push v
  | named name v =>
    cases h
    have hb : SameStep m (m.bind name v) := ⟨rfl, rfl, id⟩
    exact hb.push v
  | reaction v =>
    cases h
    have hr : SameStep m { m with reactions := Keyed.insert node v m.reactions } :=
      ⟨rfl, rfl, id⟩
    exact hr.push v
  | stream kind inputs => cases h; exact (SameStep.refl m).push _
  | run call =>
    obtain ⟨m1, hm, h⟩ := bind_eq_ok h
    cases h
    obtain ⟨name, counts, -, -, -, rfl⟩ := enter_cases hm
    exact ⟨rfl, rfl, fun _ => by simp⟩

theorem sameStep_execute {s : Step} (h : m.execute w s = .ok (m', streams)) : SameStep m m' := by
  cases executes h with
  | start node => exact sameStep_startNode m w node
  | check node => exact sameStep_checkReaction m w node
  | jump node count => exact (SameStep.refl m).skip count
  | jumpIf branched => exact sameStep_branch branched
  | finish _ performed =>
    have h1 := (sameStep_pop m _).trans (sameStep_perform performed)
    split
    · exact h1.trans (sameStep_remember _ _ _)
    · exact h1

theorem sameStep_advanced (m : Machine) :
    m.advanced.index = m.index + 1 ∧ m.advanced.status = .running ∧
      (m.frames ≠ [] → m.advanced.frames ≠ []) :=
  have h := sameStep_withFrame { m with index := m.index + 1, status := .running } fun f => f.skip 1
  ⟨h.index, h.status, h.frames⟩

/-! ## Leaving frames -/

/-- Frames are left until one is not done; when none is left, the pass is completed. -/
theorem leave_isLive {f : Frame} {rest : List Frame} (hrun : m.status = .running) :
    (leave w f rest m).IsLive := by
  induction rest generalizing f m with
  | nil =>
    unfold leave
    split
    · exact .inl ⟨by simp [isFinished], rfl⟩
    · rename_i hd
      exact .inr ⟨by simp [isFinished, hrun], f, [], rfl, by simpa using hd⟩
  | cons caller rest ih =>
    unfold leave
    split
    · dsimp only
      obtain ⟨memo, hmemo⟩ := rememberCall_eq
        { m with frames := caller.push (m.frameResult w f) :: rest } w
        (caller.push (m.frameResult w f))
      rw [hmemo]
      split <;> exact ih hrun
    · rename_i hd
      exact .inr ⟨by simp [isFinished, hrun], f, caller :: rest, rfl, by simpa using hd⟩

theorem settle_isLive (hrun : m.status = .running) (hf : m.frames ≠ []) : (m.settle w).IsLive := by
  unfold settle
  split
  · exact leave_isLive hrun
  · rename_i hn
    exact absurd hn hf

theorem fail_isFinished (m : Machine) (f : Failure) :
    (m.fail f).isFinished = true ∧ (m.fail f).IsLive :=
  have h : (m.fail f).isFinished = true := by simp [isFinished, fail]
  ⟨h, .inl ⟨h, rfl⟩⟩

/-! ## Whole steps -/

theorem step_isLive {s : Step} (h : m.step w = some (s, m', streams)) :
    m'.IsLive ∧ m'.index = m.index + 1 := by
  obtain ⟨hn, ⟨f, -, rfl, -⟩ | ⟨m1, he, rfl⟩⟩ := step_cases h
  · exact ⟨(fail_isFinished _ _).2, (sameStep_advanced m).1⟩
  · obtain ⟨h1, h2, h3⟩ := sameStep_advanced m
    have hs := sameStep_execute he
    refine ⟨settle_isLive (hs.status.trans h2) (hs.frames (h3 (frames_ne_nil_of_next? hn))), ?_⟩
    obtain ⟨_, _, _, _, heq⟩ := settle_eq m1 { w with streams }
    rw [heq]
    exact hs.index.trans h1

/-- The step after the last that a pass may take finishes it. -/
theorem step_limit {s : Step} (h : m.step w = some (s, m', streams))
    (hl : w.program.config.maxSteps ≤ m.index) : m'.isFinished = true := by
  rw [step_eq] at h
  obtain ⟨s', -, h⟩ := Option.map_eq_some_iff.1 h
  rw [effect, if_pos (by omega)] at h
  cases h
  exact (fail_isFinished _ _).1

theorem start_isLive {p : Program} (h : 0 < (p.code.ofNode p.tree.root).size) :
    (Machine.start p).IsLive :=
  .inr ⟨rfl, _, _, rfl, decide_eq_false (Nat.not_le_of_gt h)⟩

end ReactiveLang.Machine
