import ReactiveLang.Proofs.Eval.Limits
import ReactiveLang.Proofs.Session.Discipline
import ReactiveLang.Proofs.Session.Navigation

/-!
# The limits of a session

Whatever a host does with a session, every pass stays within the limits, `evaluate` and `react`
come to an end, and a pass that a limit cuts short ends with the failure of that limit.

* `Sound.bounded`, `Sound.length_le`: the bounds of a pass.
* `Sound.exceeds`: how a pass ends at a limit.
* `limits_bound`: all of it, for a program that has been started.
-/

namespace ReactiveLang.Session

open Machine

variable {s : Session}

/-- Every call of the pass sees an evaluation of the pass. So it is unless a call goes to a closure,
or to a member of an instance, that an earlier pass has kept. -/
def CallsOwn (s : Session) (place : Nat) : Prop :=
  ∀ offset < s.length place, ∀ st, (s.machineAt place offset).next? = some st →
    (s.machineAt place offset).CallsBegun (s.world place) st

/-- The step after so many steps of a pass is the last one, and the pass has failed. -/
def EndsWith (s : Session) (place offset : Nat) (f : Failure) : Prop :=
  offset + 1 = s.length place ∧ (s.machineAt place (offset + 1)).status = .exception ∧
    (s.machineAt place (offset + 1)).result = some f.toValue

/-- The newest pass is finished, and there is no step to take. -/
def IsOver (s : Session) : Prop := s.machine.isFinished = true ∧ s.step = (none, s)

section
variable (h : s.Sound)
include h

theorem Sound.length_le {place : Nat} (hp : place < s.passes.size) :
    s.length place ≤ s.program.config.maxSteps + 1 := by
  refine Nat.le_of_not_lt fun hlt => ?_
  -- the pass would go on after a machine that is finished
  have hgoes := h.not_isFinished hp hlt
  rw [h.finished_of_limit hp (Nat.le_of_lt hlt) (Nat.lt_succ_self _)] at hgoes
  cases hgoes

theorem Sound.bounded (hd : 0 < s.program.config.maxCallDepth) {place offset : Nat}
    (hp : place < s.passes.size) (ho : offset ≤ s.length place) :
    (s.machineAt place offset).Bounded s.program.config :=
  (h.passes place hp).retraces.bounded (bounded_start hd) ho

theorem Sound.tallied {place offset : Nat} (hp : place < s.passes.size)
    (ho : offset ≤ s.length place) : (s.machineAt place offset).Tallied :=
  (h.passes place hp).retraces.tallied (tallied_start _) ho

/-- A pass for which the reactions have kept neither instances nor closures calls its own only. -/
theorem Sound.callsOwn {place : Nat} (hp : place < s.passes.size)
    (hk : ∀ e ∈ (s.record place).pass.reactions, e.2.Holds Handle.Placeless) :
    s.CallsOwn place := by
  obtain ⟨-, -, hknown, hrecallable, hretraces, -, -⟩ := h.passes place hp
  have hrooted : (s.record place).pass.Holds Handle.Rooted :=
    ⟨fun e he => Value.rooted_of_isPortable (hrecallable e he) (hknown.memo e he),
      fun e he => (hk e he).mono fun _ => Handle.Placeless.rooted⟩
  intro offset ho st hn node call _ hcall
  have hlinked : (s.machineAt place offset).Linked :=
    hretraces.linked (linked_start _) hrooted h.regular (Nat.le_of_lt ho)
  exact hlinked.closure_lt (w := s.world place) (frames_ne_nil_of_next? hn) h.regular hcall

/-- Along the links of a pass that calls its own only, one comes to an end. -/
theorem Sound.walk {place offset : Nat} (hp : place < s.passes.size)
    (ho : offset ≤ s.length place) (hc : s.CallsOwn place) {id : EvaluationId}
    (hid : id.index < (s.machineAt place offset).evaluations.size) :
    (s.machineAt place offset).evaluations.Walk id
      ((s.machineAt place offset).evaluations.chain id) :=
  Evaluations.walk_chain
    ((h.passes place hp).retraces.placed (linked_start s.program).placed hc ho).links
    (h.tallied hp ho).dense hid

/-- A step that would exceed a limit is the last one of its pass. -/
theorem Sound.endsWith {place offset : Nat} (hp : place < s.passes.size)
    (ho : offset < s.length place) {st : Step}
    (hn : (s.machineAt place offset).next? = some st) {kind : ExceptionKind Value}
    (he : (s.machineAt place offset).Exceeds (s.world place) st kind) :
    s.EndsWith place offset ⟨kind, st.node⟩ := by
  have hafter : s.machineAt place (offset + 1) = _ := after_succ (step_exceeds hn he)
  unfold EndsWith
  refine ⟨?_, by rw [hafter]; rfl, by rw [hafter]; rfl⟩
  refine Nat.le_antisymm ho (Nat.le_of_not_lt fun hlt => ?_)
  have hgoes := h.not_isFinished hp hlt
  rw [hafter, (fail_isFinished _ _).1] at hgoes
  cases hgoes

/-- A pass that ends with the failure of a limit would have exceeded it. -/
theorem Sound.exceeds {place offset : Nat} (hp : place < s.passes.size)
    (ho : offset < s.length place) {st : Step} (hn : (s.machineAt place offset).next? = some st)
    {f : Failure} (hlimit : f.kind.isLimit = true)
    (hf : (s.machineAt place (offset + 1)).result = some f.toValue) :
    f.node = st.node ∧ (s.machineAt place offset).Exceeds (s.world place) st f.kind := by
  obtain ⟨-, -, hknown, -, hretraces, -, -⟩ := h.passes place hp
  obtain ⟨st', -, hstep⟩ := hretraces offset ho
  have hnext := (step_cases hstep).1
  rw [show (Machine.start s.program).after _ offset = s.machineAt place offset from rfl, hn] at hnext
  obtain rfl := Option.some.inj hnext
  exact exceeds_of_step
    (hretraces.known h.regular (start_known _ _) hknown (Nat.le_of_lt ho)) hknown h.regular
    (hretraces.result_none (start_known _ _) hknown h.regular rfl ho) hstep hf hlimit

end

/-- Once the newest pass is finished there is no step to take. -/
theorem RunOut.isOver {s' : Session} (h : RunOut s s') : s'.IsOver :=
  ⟨h.finished, h.sound.step_of_finished h.atEnd h.finished⟩

theorem Host.isOver_evaluate (h : s.Host) : s.evaluate.2.IsOver :=
  (h.sound.evaluate (.inl h.begun)).isOver

theorem RunOut.announce {s' : Session} (h : RunOut s s') (r : Reaction) :
    RunOut s (s'.announce r) :=
  ⟨h.sound.told _ _, ⟨h.atEnd.cursor, h.atEnd.index⟩, h.finished, h.program, h.size, h.log,
    h.start⟩

theorem Host.isOver_react (h : s.Host) : s.react.2.IsOver := by
  obtain ⟨hsound, he⟩ := h.sound.followed h.begun
  rw [react_eq]
  exact ((hsound.evaluate (.inr he)).announce _).isOver

theorem maxCallDepth_pos {config : Config} (h : config.fault? = none) : 0 < config.maxCallDepth := by
  unfold Config.fault? at h
  split at h
  · cases h
  · split at h
    · cases h
    · omega

/-- The limits bound every pass. Whatever a host does with a program that may run, at most one step
more than there may be is taken and logged in a pass; there are never more frames, also before the
frames that are done are left, and never more calls of a definition than there may be; and where
the calls of a pass see evaluations of the pass only, as they do unless its reactions have kept a
closure or an instance, the way along the links ends by itself. So `evaluate` and `react` come to
an end, after which there is no step. A step that would exceed a limit is the last one of its pass,
which ends with the failure of the first such limit; and no other step ends a pass with the failure
of a limit. -/
theorem limits_bound {d : Draft} {root : NodeId} {t : Tree} {config : Config} {s : Session}
    (ht : d.finish root = .ok t) (hs : Session.start t config = .ok s) (commands : List Command) :
    let now := s.after commands
    (∀ place < now.passes.size, now.length place ≤ config.maxSteps + 1 ∧
      ((∀ e ∈ (now.record place).pass.reactions, e.2.Holds Handle.Placeless) →
        now.CallsOwn place) ∧
      ∀ offset ≤ now.length place,
        let m := now.machineAt place offset
        m.depth ≤ config.maxCallDepth ∧
        (∀ st streams replaying during streams',
          m.advanced.execute ⟨now.program, (now.record place).pass, streams, replaying⟩ st =
            .ok (during, streams') → during.depth ≤ config.maxCallDepth) ∧
        (∀ definition, m.evaluations.callsOf definition ≤ config.maxEvaluations) ∧
        (now.CallsOwn place → ∀ id, id.index < m.evaluations.size →
          m.evaluations.Walk id (m.evaluations.chain id))) ∧
    (now.evaluate.2.IsOver ∧ now.react.2.IsOver) ∧
    ∀ place < now.passes.size, ∀ offset < now.length place, ∀ st,
      (now.machineAt place offset).next? = some st →
      (∀ kind, (now.machineAt place offset).Exceeds (now.world place) st kind →
        now.EndsWith place offset ⟨kind, st.node⟩) ∧
      ∀ f : Failure, f.kind.isLimit = true →
        (now.machineAt place (offset + 1)).result = some f.toValue →
        f.node = st.node ∧ (now.machineAt place offset).Exceeds (now.world place) st f.kind := by
  intro now
  obtain ⟨hsound, -, -, hprogram⟩ := start_after ht hs commands
  have hhost : now.Host := (host_start ht hs).after commands
  have hconfig : now.program.config = config := congrArg Program.config hprogram
  have hdepth : 0 < now.program.config.maxCallDepth :=
    hconfig ▸ maxCallDepth_pos (start_cases hs).1
  rw [← hconfig]
  refine ⟨fun place hp => ⟨hsound.length_le hp, hsound.callsOwn hp, fun offset ho => ?_⟩,
    ⟨hhost.isOver_evaluate, hhost.isOver_react⟩, fun place hp offset ho st hn =>
      ⟨fun kind => hsound.endsWith hp ho hn, fun f => hsound.exceeds hp ho hn⟩⟩
  have hbounded := hsound.bounded hdepth hp ho
  refine ⟨hbounded.depth, fun st streams replaying during streams' he => ?_, fun definition => ?_,
    fun hc id => hsound.walk hp ho hc⟩
  · exact (execute_bounded ((sameCalls_advanced _).bounded hbounded) he).depth
  · rw [← (hsound.tallied hp ho).counts]
    exact hbounded.calls definition

/-- The tree of a program that defines `loop`, which calls itself, and calls it. -/
def loopTree : Tree :=
  ⟨#[⟨.reference "loop", .zero⟩, ⟨.call ⟨0⟩ [], .zero⟩,
    ⟨.functionDef "loop" [] none (some ⟨1⟩), .zero⟩, ⟨.reference "loop", .zero⟩,
    ⟨.call ⟨3⟩ [], .zero⟩, ⟨.block [⟨2⟩, ⟨4⟩], .zero⟩, ⟨.program ⟨5⟩, .zero⟩],
    #[some ⟨1⟩, some ⟨2⟩, some ⟨5⟩, some ⟨4⟩, some ⟨5⟩, some ⟨6⟩, none], ⟨6⟩⟩

theorem finish_loop : loopTree.edit.finish ⟨6⟩ = .ok loopTree := rfl

/-- Whether a node calls a definition of this name. -/
def callsNamed (t : Tree) (name : String) : Except (ExceptionKind Value) Outcome → Bool
  | .ok (.run call) =>
    match callName t call with
    | .ok called => called == name
    | _ => false
  | _ => false

theorem of_callsNamed {t : Tree} {name : String} {o : Except (ExceptionKind Value) Outcome}
    (h : callsNamed t name o = true) : ∃ call, o = .ok (.run call) ∧ callName t call = .ok name := by
  unfold callsNamed at h
  split at h
  · rename_i call
    split at h
    · rename_i called hcalled
      exact ⟨call, rfl, by rw [hcalled, eq_of_beq h]⟩
    · cases h
  · cases h

/-- With three frames at most, the third call of `loop` ends the pass, as that of a fourth frame. -/
theorem limits_bound_loop : loopTree.edit.finish ⟨6⟩ = .ok loopTree ∧
    ∃ s, Session.start loopTree { Config.default with maxCallDepth := 3 } = .ok s ∧
      let now := s.after [.evaluate]
      0 < now.passes.size ∧ 15 < now.length 0 ∧
        (now.machineAt 0 15).next? = some (.finish ⟨1⟩) ∧ (now.machineAt 0 15).depth ≤ 3 ∧
        (now.machineAt 0 15).Exceeds (now.world 0) (.finish ⟨1⟩) .callDepthLimit ∧
        now.EndsWith 0 15 ⟨.callDepthLimit, ⟨1⟩⟩ ∧ now.evaluate.2.IsOver := by
  have hstart : Session.start loopTree { Config.default with maxCallDepth := 3 } =
      .ok (ofProgram (Program.ofTree loopTree { Config.default with maxCallDepth := 3 })) :=
    start_eq (by decide) (by decide +kernel)
  let now := (ofProgram (Program.ofTree loopTree { Config.default with maxCallDepth := 3 })).after
    [.evaluate]
  have hplace : 0 < now.passes.size ∧ 15 < now.length 0 := by decide +kernel
  have hnext : (now.machineAt 0 15).next? = some (.finish ⟨1⟩) := by decide +kernel
  have hlimits : (now.machineAt 0 15).index < now.program.config.maxSteps ∧
      now.program.config.maxCallDepth ≤ (now.machineAt 0 15).depth := by decide +kernel
  have hcalls : callsNamed now.program.tree "loop"
      ((now.machineAt 0 15).outcomeOf (now.world 0) ⟨1⟩) = true := by
    decide +kernel
  have hexceeds : (now.machineAt 0 15).Exceeds (now.world 0) (.finish ⟨1⟩) .callDepthLimit := by
    obtain ⟨call, ho, hname⟩ := of_callsNamed hcalls
    exact .call hlimits.1 ⟨⟨1⟩, rfl, ho, hname⟩ (.depth hlimits.2)
  obtain ⟨hbound, ⟨hover, -⟩, hends⟩ := limits_bound finish_loop hstart [.evaluate]
  exact ⟨finish_loop, _, hstart, hplace.1, hplace.2, hnext,
    ((hbound 0 hplace.1).2.2 15 (Nat.le_of_lt hplace.2)).1, hexceeds,
    (hends 0 hplace.1 15 hplace.2 _ hnext).1 _ hexceeds, hover⟩

end ReactiveLang.Session
