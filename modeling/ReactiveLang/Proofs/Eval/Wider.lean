import ReactiveLang.Proofs.Eval.Limits

/-!
# Wider limits

The settings matter to a step in two places: a step or a call that would exceed a limit is refused,
and a clock has a frequency. With wider limits, then, a step that exceeds none is the same step.

* `Config.Within`: the other settings have wider limits, and are otherwise the same.
* `step_within`: a step within the limits is the same within wider ones.
-/

namespace ReactiveLang

/-- The limits are within those of the other settings, which are otherwise the same. -/
structure Config.Within (config wider : Config) : Prop where
  steps : config.maxSteps ≤ wider.maxSteps
  depth : config.maxCallDepth ≤ wider.maxCallDepth
  evaluations : config.maxEvaluations ≤ wider.maxEvaluations
  interval : wider.snapshotInterval = config.snapshotInterval
  frequency : wider.timeFrequency = config.timeFrequency

namespace Machine

variable {m : Machine} {w : World} {config wider : Config} {s : Step}

/-- A call that is counted is counted the same within wider limits. -/
theorem countCall_within {definition : NodeId} {name : String} (h : config.Within wider)
    (hr : ∀ kind, ¬ m.Refuses config definition name kind) :
    m.countCall wider definition name = m.countCall config definition name := by
  obtain ⟨kind, -, hrefused⟩ | ⟨hdepth, hcount, hok⟩ := m.countCall_spec config definition name
  · exact absurd hrefused (hr kind)
  · obtain ⟨kind, -, hrefused⟩ | ⟨-, -, hok'⟩ := m.countCall_spec wider definition name
    · cases hrefused with
      | depth limit => exact absurd hdepth (Nat.not_lt_of_le (Nat.le_trans h.depth limit))
      | evaluations _ limit =>
        exact absurd hcount (Nat.not_lt_of_le (Nat.le_trans h.evaluations limit))
    · rw [hok, hok']

/-- A clock that a call makes has the frequency of the settings. -/
theorem openStream_within (h : w.program.config.Within wider) (kind : StreamKind) (node : NodeId)
    (inputs : List Value) :
    openStream (w.withConfig wider) kind node inputs = openStream w kind node inputs := by
  have hcreate : w.streams.create kind node inputs w.pass.number wider =
      w.streams.create kind node inputs w.pass.number w.program.config := by
    unfold Streams.create
    rw [h.frequency]
  unfold openStream
  dsimp only [World.withConfig, Program.withConfig]
  rw [hcreate]
  rfl

theorem enter_within {call : Call} (h : w.program.config.Within wider)
    (hr : ∀ name kind, callName w.tree call = .ok name →
      ¬ m.Refuses w.program.config call.definition name kind) :
    m.enter (w.withConfig wider) call = m.enter w call := by
  unfold enter
  cases hn : callName w.tree call with
  | error kind =>
    show (callName w.tree call >>= _) = _
    rw [hn]
    rfl
  | ok name =>
    show (callName w.tree call >>= _) = _
    rw [hn]
    show (m.countCall wider call.definition name >>= _) = _
    rw [countCall_within h (hr name · hn)]
    rfl

theorem perform_within {node : NodeId} {o : Outcome} (h : w.program.config.Within wider)
    (hr : ∀ call, o = .run call → ∀ name kind, callName w.tree call = .ok name →
      ¬ m.Refuses w.program.config call.definition name kind) :
    m.perform (w.withConfig wider) node o = m.perform w node o := by
  cases o with
  | stream kind inputs =>
    unfold perform
    dsimp only
    rw [openStream_within h]
  | run call =>
    show (m.enter (w.withConfig wider) call >>= _) = (m.enter w call >>= _)
    rw [enter_within h (hr call rfl)]
    rfl
  | _ => rfl

theorem finishNode_within {node : NodeId} (h : w.program.config.Within wider)
    (hr : ∀ call name kind, m.Calls w (.finish node) call name →
      ¬ m.Refuses w.program.config call.definition name kind) :
    m.finishNode (w.withConfig wider) node = m.finishNode w node := by
  rw [finishNode_eq, finishNode_eq]
  show (m.outcomeOf w node >>= _) = (m.outcomeOf w node >>= _)
  cases ho : m.outcomeOf w node with
  | error kind => rfl
  | ok o =>
    refine perform_within h fun call hcall name kind hname hrefused => ?_
    exact hr call name kind ⟨node, rfl, hcall ▸ ho, hname⟩
      (hrefused.congr (m.pop_depth _) ((sameCalls_pop m _).callCount _))

/-- The effect of a step that exceeds no limit is the same within wider ones. -/
theorem effect_within (h : w.program.config.Within wider)
    (hn : ∀ kind, ¬ m.Exceeds w s kind) : effect (w.withConfig wider) m s = effect w m s := by
  have hsteps : m.index < w.program.config.maxSteps :=
    Nat.lt_of_not_le fun hle => hn _ (.steps hle)
  have hexecute : m.advanced.execute (w.withConfig wider) s = m.advanced.execute w s := by
    cases s with
    | finish node =>
      have hfinish :
          m.advanced.finishNode (w.withConfig wider) node = m.advanced.finishNode w node :=
        finishNode_within h fun call name kind hcalls hrefused =>
          hn kind (.call hsteps hcalls.of_advanced
            (hrefused.congr m.advanced_depth ((sameCalls_advanced m).callCount _)))
      simp only [execute, hfinish]
      rfl
    | _ => rfl
  unfold effect
  rw [hexecute, if_neg (Nat.not_lt_of_le hsteps)]
  exact if_neg (Nat.not_lt_of_le (Nat.le_trans hsteps h.steps))

/-- A step that exceeds no limit is the same within wider ones. -/
theorem step_within (h : w.program.config.Within wider)
    (hn : ∀ s, m.next? = some s → ∀ kind, ¬ m.Exceeds w s kind) :
    m.step (w.withConfig wider) = m.step w := by
  rw [step_eq, step_eq]
  cases hnext : m.next? with
  | none => rfl
  | some s =>
    rw [Option.map_some, Option.map_some, conclude_withConfig, effect_within h (hn s hnext)]

end Machine
end ReactiveLang
