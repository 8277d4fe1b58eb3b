import ReactiveLang.Proofs.Eval.Holding

/-!
# What a step does

* `step_cases`: all that a step can do to the machine, with its conditions.
* `execute_opens`: all that the effect of a step does to the streams is to open one; so a step only
  adds to them (`step_streams`).
* `Machine.Holds`: every value that later steps can read holds `ok`.
* `conclude_withConfig`: frames are left whatever the settings are.
-/

namespace ReactiveLang

/-- What the pass starts with holds `ok`. -/
structure Pass.Holds (ok : Handle → Prop) (pass : Pass) : Prop where
  memo : ∀ e ∈ pass.memo, e.2.Holds ok
  reactions : ∀ e ∈ pass.reactions, e.2.Holds ok

theorem Pass.holds_iff_only {ok : Handle → Prop} {pass : Pass} :
    pass.Holds ok ↔ pass.Only (Value.Holds ok) :=
  ⟨fun h => ⟨h.memo, h.reactions⟩, fun h => ⟨h.memo, h.reactions⟩⟩

theorem Pass.Holds.mono {ok ok' : Handle → Prop} {pass : Pass} (h : pass.Holds ok)
    (himp : ∀ h, ok h → ok' h) : pass.Holds ok' :=
  ⟨fun e he => (h.memo e he).mono himp, fun e he => (h.reactions e he).mono himp⟩

/-! ## What a machine holds -/

namespace Machine

/-- Everything in the machine that later steps can read holds `ok`. -/
structure Holds (ok : Handle → Prop) (m : Machine) : Prop where
  values : ∀ f ∈ m.frames, ∀ v ∈ f.values, v.Holds ok
  evaluations : m.evaluations.Holds ok
  reactions : ∀ e ∈ m.reactions, e.2.Holds ok
  memo : ∀ e ∈ m.memo, e.2.Holds ok

variable {ok : Handle → Prop} {m : Machine} {w : World}

theorem Holds.mono {ok' : Handle → Prop} (h : m.Holds ok) (himp : ∀ h, ok h → ok' h) :
    m.Holds ok' :=
  ⟨fun f hf v hv => (h.values f hf v hv).mono himp, h.evaluations.mono himp,
    fun e he => (h.reactions e he).mono himp, fun e he => (h.memo e he).mono himp⟩

theorem holds_iff_only : m.Holds ok ↔ m.Only (Value.Holds ok) (Value.Holds ok) :=
  ⟨fun h => ⟨h.values, Evaluations.holds_iff_only.1 h.evaluations, h.reactions, h.memo⟩,
    fun h => ⟨h.values, Evaluations.holds_iff_only.2 h.evaluations, h.reactions, h.memo⟩⟩

theorem holds_start (p : Program) : (Machine.start p).Holds ok :=
  holds_iff_only.2 (only_start p)

theorem find?_start (p : Program) (id : EvaluationId) : (start p).evaluations.find? id =
    if id = .root then some (.start .program p.tree.root none) else none := by
  show (Evaluations.begin .empty (.start .program p.tree.root none)).2.find? id = _
  rw [Evaluations.find?_begin]
  rfl

theorem Holds.pop (h : m.Holds ok) (count : Nat) :
    (∀ v ∈ (m.pop count).1, v.Holds ok) ∧ (m.pop count).2.Holds ok := by
  obtain ⟨hvalues, hm⟩ := (holds_iff_only.1 h).pop Value.holds_nothing count
  exact ⟨hvalues, holds_iff_only.2 hm⟩

theorem holds_fail (h : m.Holds ok) (f : Failure) : (m.fail f).Holds ok :=
  holds_iff_only.2 ((holds_iff_only.1 h).fail f)

/-! ## Calls -/

theorem holds_bindInputs (t : Tree) {arguments : List Value} (ha : ∀ v ∈ arguments, v.Holds ok)
    (inputs : List NodeId) {e : Evaluation} (he : e.Holds ok) :
    (bindInputs t inputs arguments e).Holds ok :=
  Evaluation.holds_iff_only.2
    (only_bindInputs t ha inputs (Evaluation.holds_iff_only.1 he))

theorem bindInputs_fields (t : Tree) (inputs : List NodeId) (arguments : List Value)
    (e : Evaluation) : (bindInputs t inputs arguments e).definition = e.definition ∧
      (bindInputs t inputs arguments e).closure = e.closure := by
  induction inputs generalizing arguments e with
  | nil => simp [bindInputs]
  | cons input inputs ih =>
    cases arguments with
    | nil => simp [bindInputs]
    | cons v rest =>
      unfold bindInputs
      split
      · exact ih rest _
      · exact ih rest e

/-! ## The streams of a step -/

theorem perform_opens {node : NodeId} {o : Outcome} {m' : Machine} {streams : Streams}
    (h : m.perform w node o = .ok (m', streams)) :
    streams = w.streams ∨ ∃ kind node inputs, streams = (openStream w kind node inputs).2 := by
  cases o with
  | stream kind inputs =>
    cases h
    exact .inr ⟨kind, node, inputs, rfl⟩
  | run call =>
    obtain ⟨m1, -, h⟩ := bind_eq_ok h
    cases h
    exact .inl rfl
  | _ => cases h; exact .inl rfl

/-- All that the effect of a step does to the streams is to open one. -/
theorem execute_opens {s : Step} {m' : Machine} {streams : Streams}
    (h : m.execute w s = .ok (m', streams)) :
    streams = w.streams ∨ ∃ kind node inputs, streams = (openStream w kind node inputs).2 := by
  cases executes h with
  | start | check | jump | jumpIf => exact .inl rfl
  | finish _ performed => exact perform_opens performed

theorem execute_streams {s : Step} {m' : Machine} {streams : Streams}
    (h : m.execute w s = .ok (m', streams)) :
    (∀ pass, w.streams.Extends streams pass) ∧ (w.streams.Regular → streams.Regular) := by
  obtain rfl | ⟨kind, node, inputs, rfl⟩ := execute_opens h
  · exact ⟨.refl _, id⟩
  · exact ⟨openStream_extends w kind node inputs, openStream_regular w kind node inputs⟩

theorem current_eq {f : Frame} {below : List Frame} (hf : m.frames = f :: below) :
    m.current = f.evaluation := by
  rw [current, hf]
  rfl

/-! ## Whole steps -/

/-- The machine with the step counted and the position after it. -/
def advanced (m : Machine) : Machine :=
  { m with index := m.index + 1, status := .running }.skip 1

theorem Only.advanced {P S : Value → Prop} (h : m.Only P S) : m.advanced.Only P S :=
  Only.skip (m := { m with index := m.index + 1, status := .running })
    ⟨h.values, h.evaluations, h.reactions, h.memo⟩ 1

theorem Holds.advanced (h : m.Holds ok) : m.advanced.Holds ok :=
  holds_iff_only.2 (holds_iff_only.1 h).advanced

theorem fail_counted (m : Machine) (f : Failure) :
    ({ m with index := m.index + 1, status := .running } : Machine).fail f = m.advanced.fail f := by
  unfold advanced skip withFrame
  split <;> rfl

/-- What the effect of a step makes of the machine: a failure ends the pass, else the frames that
are done are left. -/
def conclude (w : World) (m : Machine) : Except Failure (Machine × Streams) → Machine × Streams
  | .ok (m', streams) => (m'.settle { w with streams }, streams)
  | .error f => (m.fail f, w.streams)

/-- The effect of the next step, which may be one too many. -/
def effect (w : World) (m : Machine) (s : Step) : Except Failure (Machine × Streams) :=
  if w.program.config.maxSteps < m.index + 1 then .error ⟨.stepLimit, s.node⟩
  else m.advanced.execute w s

theorem step_eq (m : Machine) (w : World) :
    m.step w = m.next?.map fun s => (s, conclude w m.advanced (effect w m s)) := by
  unfold step
  split
  · rename_i h; rw [h]; rfl
  · rename_i s h
    rw [h, Option.map_some]
    unfold effect
    dsimp only
    split
    · rw [fail_counted]; rfl
    · split
      · rename_i he
        rw [show m.advanced.execute w s = _ from he]; rfl
      · rename_i he
        rw [show m.advanced.execute w s = _ from he, fail_counted]; rfl

theorem effect_ok {s : Step} {r : Machine × Streams} (h : effect w m s = .ok r) :
    m.advanced.execute w s = .ok r := by
  unfold effect at h
  split at h
  · cases h
  · exact h

/-- A step fails or is taken. -/
theorem step_cases {s : Step} {m' : Machine} {streams : Streams}
    (h : m.step w = some (s, m', streams)) :
    m.next? = some s ∧
      ((∃ f, effect w m s = .error f ∧ m' = m.advanced.fail f ∧ streams = w.streams) ∨
        ∃ m1, m.advanced.execute w s = .ok (m1, streams) ∧ m' = m1.settle { w with streams }) := by
  rw [step_eq] at h
  obtain ⟨s', hs, h⟩ := Option.map_eq_some_iff.1 h
  cases he : effect w m s' with
  | error f =>
    rw [he] at h
    cases h
    exact ⟨hs, .inl ⟨f, he, rfl, rfl⟩⟩
  | ok r =>
    rw [he] at h
    obtain ⟨m1, streams1⟩ := r
    cases h
    exact ⟨hs, .inr ⟨m1, effect_ok he, rfl⟩⟩

theorem step_eq_none_iff : m.step w = none ↔ m.next? = none := by
  rw [step_eq, Option.map_eq_none_iff]

theorem step_streams {s : Step} {m' : Machine} {streams : Streams}
    (h : m.step w = some (s, m', streams)) :
    (∀ pass, w.streams.Extends streams pass) ∧ (w.streams.Regular → streams.Regular) := by
  obtain ⟨-, ⟨f, -, -, rfl⟩ | ⟨m1, he, -⟩⟩ := step_cases h
  · exact ⟨.refl _, id⟩
  · exact execute_streams he

end Machine

/-! ## Other settings -/

/-- The same program with other settings. -/
def Program.withConfig (p : Program) (config : Config) : Program := { p with config }

/-- The same step of a program with other settings. -/
def World.withConfig (w : World) (config : Config) : World :=
  { w with program := w.program.withConfig config }

namespace Machine

variable (m : Machine) (w : World) (config : Config)

theorem leave_withConfig (f : Frame) (rest : List Frame) :
    leave (w.withConfig config) f rest m = leave w f rest m := by
  induction rest generalizing f m with
  | nil => rfl
  | cons caller rest ih =>
    unfold leave
    have hframe : m.frameResult (w.withConfig config) f = m.frameResult w f := rfl
    have hcall : ∀ (m : Machine) g, m.rememberCall (w.withConfig config) g = m.rememberCall w g :=
      fun _ _ => rfl
    simp only [ih, hframe, hcall]

theorem settle_withConfig : m.settle (w.withConfig config) = m.settle w := by
  unfold settle
  split
  · exact leave_withConfig m w config _ _
  · rfl

theorem conclude_withConfig (r : Except Failure (Machine × Streams)) :
    conclude (w.withConfig config) m r = conclude w m r := by
  cases r with
  | error f => rfl
  | ok r =>
    obtain ⟨m1, streams⟩ := r
    exact congrArg (·, streams) (settle_withConfig m1 { w with streams } config)

end Machine
end ReactiveLang
