import ReactiveLang.Proofs.Eval.Agreement
import ReactiveLang.Proofs.Eval.Wider
import ReactiveLang.Proofs.Session.Bounds
import ReactiveLang.Proofs.Session.Isolation

/-!
# Sessions with wider limits

Limits only cut runs short. Two sessions whose settings alone differ, the one's limits within the
other's, stay `Alike` step for step, until a step exceeds a limit of the first one. That step is the
last one there (`CutShort`); the other session takes the same step and goes on.

* `Alike.runOut`: the newest pass runs alike to its end, or is cut short.
* `limits_cut_short`: what the first passes of a program have in common.
-/

namespace ReactiveLang.Session

open Machine

/-- The session of the same program with other settings. -/
def withConfig (s : Session) (config : Config) : Session :=
  { s with program := s.program.withConfig config }

variable {s s' : Session} {wider : Config}

theorem stepped_withConfig (hi : wider.snapshotInterval = s.program.config.snapshotInterval)
    (step : Step) (m : Machine) (streams : Streams) :
    (s.withConfig wider).stepped step m streams = (s.stepped step m streams).withConfig wider := by
  unfold stepped logged keepSnapshot withConfig Program.withConfig
  dsimp only
  rw [hi]
  split <;> split <;> rfl

/-- Two sessions that settings alone tell apart, also when they are taken back. -/
structure Alike (wider : Config) (s s' : Session) : Prop where
  session : s' = s.withConfig wider
  machines : ∀ offset ≤ s.length s.newest,
    s'.machineAt s.newest offset = s.machineAt s.newest offset

/-- A limit has ended the newest pass, and the pass of the other session has gone on. -/
structure CutShort (s s' : Session) : Prop where
  limit : ∃ f : Failure, f.kind.isLimit = true ∧ s.result = some f.toValue
  log : s.log.toList <+: s'.log.toList
  machines : ∀ offset < s.length s.newest,
    s'.machineAt s.newest offset = s.machineAt s.newest offset

theorem Grows.log_prefix (g : Grows s s') : s.log.toList <+: s'.log.toList := by
  refine List.prefix_iff_getElem?.2 fun i hi => ?_
  have hlog := g.log i hi
  rw [Array.getElem?_eq_getElem hi] at hlog
  simpa using hlog

/-- At the end of the log, the step of the machine is the step of the session. -/
theorem Sound.runOut_stepped (h : s.Sound) (he : s.AtEnd) {step : Step} {m : Machine}
    {streams : Streams}
    (hs : s.machine.step ⟨s.program, (s.record s.cursor).pass, s.streams, false⟩ =
      some (step, m, streams)) (fuel : Nat) :
    Session.runOut (fuel + 1) s = Session.runOut fuel (s.stepped step m streams) := by
  rw [Session.runOut, h.step_of_some he hs]

theorem Alike.isAtEnd (r : Alike wider s s') (he : s.AtEnd) : s'.AtEnd := by
  rw [r.session]
  exact ⟨he.cursor, he.index⟩

section
variable (h : s.Sound) (h' : s'.Sound) (he : s.AtEnd) (r : Alike wider s s') {step : Step}
include h h' he r

/-- Sessions that take the same step stay alike. -/
theorem Alike.stepped (hw : s.program.config.Within wider) {m : Machine} {streams : Streams}
    (hs : s.machine.step ⟨s.program, (s.record s.cursor).pass, s.streams, false⟩ =
      some (step, m, streams))
    (hs' : s'.machine.step ⟨s'.program, (s'.record s'.cursor).pass, s'.streams, false⟩ =
      some (step, m, streams)) :
    Alike wider (s.stepped step m streams) (s'.stepped step m streams) := by
  have he' := r.isAtEnd he
  obtain ⟨rfl, hmachines⟩ := r
  refine ⟨stepped_withConfig hw.interval step m streams, fun offset ho => ?_⟩
  rw [s.stepped_newest, length_step h hs] at ho
  rw [s.stepped_newest]
  rcases Nat.lt_or_eq_of_le ho with hlt | rfl
  · have hle := Nat.le_of_lt_succ hlt
    rw [(grows_step h hs).machineAt h h.newest_lt hle,
      (grows_step h' hs').machineAt h' h.newest_lt hle]
    exact hmachines offset hle
  · exact (machineAt_step h' he' hs').trans (machineAt_step h he hs).symm

/-- A step that exceeds a limit is the last one, where the other session takes it and goes on. -/
theorem Alike.cutShort {kind : ExceptionKind Value} (hn : s.machine.next? = some step)
    (hx : s.machine.Exceeds ⟨s.program, (s.record s.cursor).pass, s.streams, false⟩ step kind)
    (fuel fuel' : Nat) :
    CutShort (Session.runOut (fuel + 1) s) (Session.runOut (fuel' + 1) s') := by
  have he' := r.isAtEnd he
  obtain ⟨rfl, hmachines⟩ := r
  have hs : s.machine.step ⟨s.program, (s.record s.cursor).pass, s.streams, false⟩ =
    some (step, s.machine.advanced.fail ⟨kind, step.node⟩, s.streams) := step_exceeds hn hx
  obtain ⟨m', streams', hs'⟩ : ∃ m' streams', s.machine.step ⟨s.program.withConfig wider,
      (s.record s.cursor).pass, s.streams, false⟩ = some (step, m', streams') :=
    ⟨_, _, by rw [step_eq, hn]; rfl⟩
  obtain ⟨h1, he1⟩ := h.stepped he hs
  obtain ⟨h1', he1'⟩ := h'.stepped he' hs'
  obtain ⟨-, -, -, hmachine, hlog, -, -, -, hresult⟩ :=
    s.stepped_fields step (s.machine.advanced.fail ⟨kind, step.node⟩) s.streams
  have hfailed : (s.machine.advanced.fail ⟨kind, step.node⟩).isFinished = true :=
    (fail_isFinished _ _).1
  have g' := h1'.grows_runOut he1' fuel'
  rw [h.runOut_stepped he hs, h1.runOut_of_finished he1 (by rw [hmachine, hfailed]),
    h'.runOut_stepped he' hs']
  refine ⟨⟨⟨kind, step.node⟩, hx.isLimit, ?_⟩, ?_, fun offset ho => ?_⟩
  · rw [hresult, hfailed]
    rfl
  · have hprefix := g'.log_prefix
    rw [((s.withConfig wider).stepped_fields step m' streams').2.2.2.2.1] at hprefix
    rwa [hlog]
  · rw [s.stepped_newest, length_step h hs] at ho
    have hle := Nat.le_of_lt_succ ho
    rw [s.stepped_newest, ((grows_step h' hs').trans g').machineAt h' h.newest_lt hle,
      (grows_step h hs).machineAt h h.newest_lt hle]
    exact hmachines offset hle

end

/-- The newest pass runs alike to its end, or is cut short. -/
theorem Alike.runOut (h : s.Sound) (h' : s'.Sound) (he : s.AtEnd) (r : Alike wider s s')
    (hw : s.program.config.Within wider) {fuel fuel' : Nat}
    (hf : s.program.config.maxSteps + 2 ≤ fuel + s.machine.index) (hle : fuel ≤ fuel') :
    Alike wider (Session.runOut fuel s) (Session.runOut fuel' s') ∨
      CutShort (Session.runOut fuel s) (Session.runOut fuel' s') := by
  induction fuel generalizing s s' fuel' with
  | zero =>
    have hover : s.machine.isFinished = true := by
      rw [h.atEnd_machine he]
      exact h.finished_of_limit h.newest_lt (Nat.le_refl _) (by rw [← he.index]; omega)
    have hsame : s'.machine = s.machine := by rw [r.session]; rfl
    rw [h'.runOut_of_finished (r.isAtEnd he) (hsame ▸ hover)]
    exact .inl r
  | succ fuel ih =>
    obtain ⟨fuel', rfl⟩ : ∃ n, fuel' = n + 1 := ⟨fuel' - 1, by omega⟩
    have hsame : s'.machine = s.machine := by rw [r.session]; rfl
    obtain ⟨hover, -⟩ | ⟨step, m, streams, hs, -⟩ := h.step_atEnd he
    · rw [h.runOut_of_finished he hover, h'.runOut_of_finished (r.isAtEnd he) (hsame ▸ hover)]
      exact .inl r
    · by_cases hx : ∃ kind, s.machine.Exceeds
        ⟨s.program, (s.record s.cursor).pass, s.streams, false⟩ step kind
      · obtain ⟨kind, hx⟩ := hx
        exact .inr (r.cutShort h h' he (step_cases hs).1 hx fuel fuel')
      · have hwithin : ∀ st, s.machine.next? = some st → ∀ kind, ¬ s.machine.Exceeds
            ⟨s.program, (s.record s.cursor).pass, s.streams, false⟩ st kind := by
          intro st hn kind hexceeds
          rw [(step_cases hs).1] at hn
          cases hn
          exact hx ⟨kind, hexceeds⟩
        have hs' : s'.machine.step ⟨s'.program, (s'.record s'.cursor).pass, s'.streams, false⟩ =
            some (step, m, streams) := by
          rw [r.session]
          exact (step_within hw hwithin).trans hs
        obtain ⟨h1, he1⟩ := h.stepped he hs
        obtain ⟨h1', -⟩ := h'.stepped (r.isAtEnd he) hs'
        obtain ⟨hprogram, -, -, hmachine, -⟩ := s.stepped_fields step m streams
        rw [h.runOut_stepped he hs, h'.runOut_stepped (r.isAtEnd he) hs']
        refine ih h1 h1' he1 (r.stepped h h' he hw hs hs') (hprogram ▸ hw) ?_
          (Nat.le_of_succ_le_succ hle)
        rw [hprogram, hmachine, (step_isLive hs).2]
        omega

/-! ## First passes -/

theorem fault?_wider {config : Config} (h : config.fault? = none) (hw : config.Within wider) :
    wider.fault? = none := by
  have hinterval := snapshotInterval_pos h
  have hdepth := maxCallDepth_pos h
  unfold Config.fault? at h ⊢
  rw [if_neg (Nat.ne_of_gt hinterval), if_neg (Nat.ne_of_gt hdepth)] at h
  rw [if_neg (by rw [hw.interval]; exact Nat.ne_of_gt hinterval),
    if_neg (Nat.ne_of_gt (Nat.lt_of_lt_of_le hdepth hw.depth)), hw.frequency]
  exact h

theorem Sound.length_first (h : s.Sound) (hp : s.passes.size = 1) : s.length 0 = s.log.size := by
  have hnewest : s.newest = 0 := by rw [newest, hp]
  have hstop := h.stop_newest
  rw [hnewest] at hstop
  rw [length, hstop, h.first]
  rfl

/-- In a session of one pass the cursor goes to places of that pass. -/
theorem Sound.moveTo_first (h : s.Sound) (hp : s.passes.size = 1) {index : Nat}
    (hi : index ≤ s.log.size) : (s.moveTo index).machine = s.machineAt 0 index := by
  have hto : s.passTo (min index s.log.size) = 0 := by
    have hlt := (h.passTo_spec (Nat.min_le_right index s.log.size)).1
    omega
  rw [h.moveTo, hto, Nat.min_eq_left hi, h.first]
  rfl

/-- Where a log goes on, a cursor finds the machines that the passes have in common. -/
theorem moveTo_same (h : s.Sound) (h' : s'.Sound) (hp : s.passes.size = 1) (hp' : s'.passes.size = 1)
    (hlog : s.log.toList <+: s'.log.toList) {index : Nat} (hi : index ≤ s.log.size)
    (hm : s'.machineAt s.newest index = s.machineAt s.newest index) :
    (s'.moveTo index).machine = (s.moveTo index).machine := by
  rw [newest, hp] at hm
  rw [h.moveTo_first hp hi, h'.moveTo_first hp' (Nat.le_trans hi hlog.length_le)]
  exact hm

theorem alike_ofProgram (p : Program) (config : Config) :
    Alike config (ofProgram p) (ofProgram (p.withConfig config)) := by
  refine ⟨rfl, fun offset ho => ?_⟩
  obtain rfl : offset = 0 := Nat.le_zero.1 ho
  rfl

/-- Runs from the same place to the end of the log go alike, or the first one is cut short. -/
theorem Alike.evaluate (h : s.Sound) (h' : s'.Sound) (he : s.AtEnd) (r : Alike wider s s')
    (hw : s.program.config.Within wider) :
    Alike wider s.evaluate.2 s'.evaluate.2 ∨ CutShort s.evaluate.2 s'.evaluate.2 := by
  have he' := r.isAtEnd he
  have hprogram : s'.program.config = wider := by rw [r.session]; rfl
  rw [(h.evaluate_eq (.inr he)).1, (h'.evaluate_eq (.inr he')).1, h.atEnd_eq he, h'.atEnd_eq he',
    hprogram]
  exact r.runOut h h' he hw (Nat.le_add_right _ _) (Nat.add_le_add_right hw.steps 2)

theorem evaluate_value (s : Session) : s.evaluate.1 = s.evaluate.2.result.getD .nothing := rfl

/-- Limits only cut runs short. A program that may run may run with wider limits too. The log of its
first pass is then the beginning of the longer one, and before the last step of the log a cursor
finds the same machine at every place. Unless the pass has ended with the failure of a limit, it is
the same pass: the sessions are the same but for the settings, and so are their machines at every
place. -/
theorem limits_cut_short {d : Draft} {root : NodeId} {t : Tree} {config wider : Config} {s : Session}
    (ht : d.finish root = .ok t) (hs : Session.start t config = .ok s)
    (hw : config.Within wider) :
    ∃ s', Session.start t wider = .ok s' ∧
      let now := s.evaluate.2
      let now' := s'.evaluate.2
      now.log.toList <+: now'.log.toList ∧
      (∀ index < now.log.size, (now'.moveTo index).machine = (now.moveTo index).machine) ∧
      ((∀ f : Failure, f.kind.isLimit = true → s.evaluate.1 ≠ f.toValue) →
        now' = now.withConfig wider ∧ now'.log = now.log ∧ s'.evaluate.1 = s.evaluate.1 ∧
        ∀ index ≤ now.log.size, (now'.moveTo index).machine = (now.moveTo index).machine) := by
  obtain ⟨hf, hc, rfl⟩ := start_cases hs
  have hs' : Session.start t wider = .ok (ofProgram ((Program.ofTree t config).withConfig wider)) :=
    start_eq (fault?_wider hf hw) hc
  have h := (host_start ht hs).sound
  have h' := (host_start ht hs').sound
  have r := alike_ofProgram (Program.ofTree t config) wider
  have he : (ofProgram (Program.ofTree t config)).AtEnd := ⟨rfl, rfl⟩
  have hrun := h.evaluate (.inr he)
  have hrun' := h'.evaluate (.inr (r.isAtEnd he))
  refine ⟨_, hs', ?_⟩
  intro now now'
  have hlength : now.length now.newest = now.log.size := by
    rw [newest, hrun.size]
    exact hrun.sound.length_first hrun.size
  obtain hsame | hcut := r.evaluate h h' he hw
  · have hlog : now'.log = now.log := (congrArg Session.log hsame.session).trans rfl
    have hvalue : now'.result = now.result :=
      (congrArg Session.result hsame.session).trans rfl
    have hmoves : ∀ index ≤ now.log.size,
        (now'.moveTo index).machine = (now.moveTo index).machine := fun index hi =>
      moveTo_same hrun.sound hrun'.sound hrun.size hrun'.size (hlog ▸ List.prefix_refl _) hi
        (hsame.machines index (hlength ▸ hi))
    refine ⟨hlog ▸ List.prefix_refl _, fun index hi => hmoves index (Nat.le_of_lt hi),
      fun _ => ⟨hsame.session, hlog, ?_, hmoves⟩⟩
    rw [evaluate_value, evaluate_value]
    exact congrArg (·.getD Value.nothing) hvalue
  · refine ⟨hcut.log, fun index hi => ?_, fun hfree => ?_⟩
    · exact moveTo_same hrun.sound hrun'.sound hrun.size hrun'.size hcut.log (Nat.le_of_lt hi)
        (hcut.machines index (hlength ▸ hi))
    · obtain ⟨f, hlimit, hresult⟩ := hcut.limit
      refine absurd ?_ (hfree f hlimit)
      rw [evaluate_value, hresult]
      rfl

/-- With four frames instead of three, `loop` is called once more after the same fifteen steps; and
the choice of a text, which takes less than thirty steps, is the same pass within the usual ones. -/
theorem limits_cut_short_loop : loopTree.edit.finish ⟨6⟩ = .ok loopTree ∧
    (∃ s s', Session.start loopTree { Config.default with maxCallDepth := 3 } = .ok s ∧
      Session.start loopTree { Config.default with maxCallDepth := 4 } = .ok s' ∧
      s.evaluate.2.log.toList <+: s'.evaluate.2.log.toList ∧
      15 < s.evaluate.2.log.size ∧
      (s'.evaluate.2.moveTo 15).machine = (s.evaluate.2.moveTo 15).machine) ∧
    ∃ s s', Session.start Pass.choiceTree { Config.default with maxSteps := 30 } = .ok s ∧
      Session.start Pass.choiceTree .default = .ok s' ∧ s'.evaluate.1 = s.evaluate.1 := by
  have hloop : Session.start loopTree { Config.default with maxCallDepth := 3 } =
      .ok (ofProgram (Program.ofTree loopTree { Config.default with maxCallDepth := 3 })) :=
    start_eq (by decide) (by decide +kernel)
  have hchoice : Session.start Pass.choiceTree { Config.default with maxSteps := 30 } =
      .ok (ofProgram (Program.ofTree Pass.choiceTree { Config.default with maxSteps := 30 })) :=
    start_eq (by decide) (by decide +kernel)
  have hdepth : Config.Within { Config.default with maxCallDepth := 3 }
      { Config.default with maxCallDepth := 4 } :=
    ⟨Nat.le_refl _, by decide, Nat.le_refl _, rfl, rfl⟩
  have hsteps : Config.Within { Config.default with maxSteps := 30 } .default :=
    ⟨by decide, Nat.le_refl _, Nat.le_refl _, rfl, rfl⟩
  obtain ⟨s1, hs1, hlog, hmachines, -⟩ := limits_cut_short finish_loop hloop hdepth
  obtain ⟨s2, hs2, -, -, hsame⟩ := limits_cut_short Pass.finish_choice hchoice hsteps
  have hsize : 15 < (ofProgram (Program.ofTree loopTree
      { Config.default with maxCallDepth := 3 })).evaluate.2.log.size := by
    decide +kernel
  have hvalue : ((ofProgram (Program.ofTree Pass.choiceTree
      { Config.default with maxSteps := 30 })).evaluate.1.typeOf.same .text) = true := by
    decide +kernel
  refine ⟨finish_loop, ⟨_, s1, hloop, hs1, hlog, hsize, hmachines 15 hsize⟩, _, s2, hchoice, hs2,
    (hsame fun f _ he => ?_).2.2.1⟩
  rw [he] at hvalue
  cases hvalue

end ReactiveLang.Session
