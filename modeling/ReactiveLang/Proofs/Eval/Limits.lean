import ReactiveLang.Proofs.Eval.Links

/-!
# Limits

A pass takes so many steps, has so many frames at once and calls each definition so often, and the
step that would exceed one of these ends it.

* `Machine.Bounded`: frames and calls are within the limits. `execute_bounded`, `step_bounded`: so
  they are in the middle of a step and after it.
* `step_exceeds`, `exceeds_of_step`: a step ends the pass with the failure of a limit if it would
  exceed that limit, and only then.
* `Retraces.bounded`, `Retraces.tallied`, `Retraces.placed`, `Retraces.linked`: what all machines
  of a run keep. Links go back as long as calls see evaluations that have begun.
-/

namespace ReactiveLang.Machine

variable {m m' : Machine} {w : World} {s : Step} {streams : Streams}

/-! ## Within the limits -/

/-- There are no more frames and no more calls of a definition than there may be. -/
structure Bounded (config : Config) (m : Machine) : Prop where
  depth : m.depth ≤ config.maxCallDepth
  calls : ∀ definition, m.callCount definition ≤ config.maxEvaluations

theorem bounded_start {p : Program} {config : Config} (h : 0 < config.maxCallDepth) :
    (start p).Bounded config := ⟨h, fun _ => Nat.zero_le _⟩

theorem SameCalls.bounded {config : Config} (h : SameCalls m m') (hb : m.Bounded config) :
    m'.Bounded config :=
  ⟨Nat.le_trans h.depth hb.depth, fun definition => h.callCount definition ▸ hb.calls definition⟩

theorem Entered.bounded {call : Call} (h : Entered w m call m') (hb : m.Bounded w.program.config) :
    m'.Bounded w.program.config := by
  refine ⟨Nat.le_trans h.depth h.depth_lt, fun definition => ?_⟩
  unfold callCount
  rw [h.counts]
  by_cases hd : definition = call.definition
  · rw [hd, Keyed.lookup_insert_self]
    exact h.count_lt
  · rw [Keyed.lookup_insert_of_ne hd]
    exact hb.calls definition

/-- In the middle of a step a call may have put its frame on top, and no other one is left yet. -/
theorem execute_bounded (hb : m.Bounded w.program.config)
    (he : m.execute w s = .ok (m', streams)) : m'.Bounded w.program.config := by
  obtain hsame | ⟨call, name, -, hin⟩ := execute_calls he
  · exact hsame.bounded hb
  · exact hin.bounded hb

theorem step_bounded (hb : m.Bounded w.program.config)
    (hs : m.step w = some (s, m', streams)) : m'.Bounded w.program.config := by
  obtain hsame | ⟨call, name, -, hin⟩ := step_calls hs
  · exact hsame.bounded hb
  · exact hin.bounded hb

/-! ## Beyond a limit -/

/-- What a step that would exceed a limit fails with. -/
theorem Exceeds.isLimit {kind : ExceptionKind Value} (h : m.Exceeds w s kind) :
    kind.isLimit = true := by
  cases h with
  | steps => rfl
  | call _ _ refused => cases refused <;> rfl

theorem countCall_refused {config : Config} {definition : NodeId} {name : String}
    {kind : ExceptionKind Value} (h : m.Refuses config definition name kind) :
    m.countCall config definition name = .error kind := by
  unfold countCall
  cases h with
  | depth limit => exact if_pos limit
  | evaluations depth limit =>
    have hcount : config.maxEvaluations < (m.callCounts.lookup definition).getD 0 + 1 :=
      Nat.lt_succ_of_le limit
    exact (if_neg (Nat.not_le_of_gt depth)).trans (if_pos hcount)

/-- A call that is refused fails the node that asked for it. -/
theorem finishNode_refused {node : NodeId} {call : Call} {name : String}
    {kind : ExceptionKind Value} (ho : m.outcomeOf w node = .ok (.run call))
    (hname : callName w.tree call = .ok name)
    (hrefused : m.Refuses w.program.config call.definition name kind) :
    m.finishNode w node = .error kind := by
  have hpop := sameCalls_pop m (w.tree.construct node).operandCount
  have hcount := countCall_refused (hrefused.congr (m.pop_depth _).symm
    (hpop.callCount call.definition).symm)
  have henter : (m.pop (w.tree.construct node).operandCount).2.enter w call = .error kind := by
    unfold enter
    rw [hname]
    show (countCall _ _ _ _ >>= _) = _
    rw [hcount]
    rfl
  rw [finishNode_eq, show w.outcome _ _ _ _ = _ from ho]
  show (enter _ w call >>= _) = _
  rw [henter]
  rfl

/-- A step that would exceed a limit ends the pass with the failure of that limit. -/
theorem step_exceeds (hn : m.next? = some s) {kind : ExceptionKind Value}
    (h : m.Exceeds w s kind) :
    m.step w = some (s, m.advanced.fail ⟨kind, s.node⟩, w.streams) := by
  have heffect : effect w m s = .error ⟨kind, s.node⟩ := by
    unfold effect
    cases h with
    | steps limit => exact if_pos (Nat.lt_succ_of_le limit)
    | call steps calls refused =>
      obtain ⟨node, rfl, ho, hname⟩ := calls
      have hfinish := finishNode_refused ((outcomeOf_advanced node).trans ho) hname
        (refused.congr m.advanced_depth.symm ((sameCalls_advanced m).callCount _).symm)
      rw [if_neg (Nat.not_lt_of_le steps)]
      simp only [execute, hfinish, Step.node]
  rw [step_eq, hn, Option.map_some, heffect]
  rfl

/-- A step that ends the pass with the failure of a limit would have exceeded that limit. -/
theorem exceeds_of_step (hm : m.Holds (Handle.Known w.streams.size))
    (hp : w.pass.Holds (Handle.Known w.streams.size)) (hr : w.streams.Regular)
    (hres : m.result = none) (hs : m.step w = some (s, m', streams)) {f : Failure}
    (hf : m'.result = some f.toValue) (hlimit : f.kind.isLimit = true) :
    f.node = s.node ∧ m.Exceeds w s f.kind := by
  obtain ⟨hnext, ⟨g, he, rfl, -⟩ | ⟨m1, he, rfl⟩⟩ := step_cases hs
  · obtain ⟨hnode, hkind⟩ := effect_fails hm hr.holds he
    have hsame : g = f := by
      obtain ⟨kind, node⟩ := g
      obtain ⟨kind', node'⟩ := f
      cases hf
      rfl
    subst hsame
    refine ⟨hnode, hkind.resolve_left fun hown => ?_⟩
    rw [hown.1] at hlimit
    cases hlimit
  · -- frames that are left give no failure
    obtain ⟨hx, hr'⟩ := step_streams hs
    have hle := Handle.Known.mono (hx 0).size_le
    have h1 := execute_known (hm.mono hle).advanced (hp.mono hle) hr (Nat.le_refl _) he
    have hnone : m1.result = none :=
      (execute_result he).trans ((sameGiven_advanced m).result.trans hres)
    have hclean : (m1.settle { w with streams }).ResultHolds (· ≠ .failure) := by
      refine settle_resultHolds (w := { w with streams }) (hr' hr).holds
        (h1.mono fun _ => Handle.Known.ne_failure) (fun _ _ => nofun) fun v hv => ?_
      rw [hnone] at hv
      cases hv
    exact absurd rfl (ne_exception_of_clean (hclean _ hf) f.kind f.node)

/-! ## Links -/

/-- A step that calls only what has begun links its evaluation to an earlier one. -/
theorem step_placed {n : Nat} (h : m.Placed n) (hc : m.CallsBegun w s)
    (hs : m.step w = some (s, m', streams)) : m'.Placed n := by
  obtain ⟨-, ⟨f, -, rfl, -⟩ | ⟨m1, he, rfl⟩⟩ := step_cases hs
  · exact h.advanced.fail f
  · refine (execute_placed h.advanced (fun node call hnode ho => ?_) he).settle
    rw [advanced_evaluations]
    exact hc node call hnode ((outcomeOf_advanced node).symm.trans ho)

/-! ## Runs -/

section
variable {count : Nat} {steps : Nat → Option Step} (h : m.Retraces w count steps)
include h

theorem Retraces.bounded (hb : m.Bounded w.program.config) {i : Nat} (hi : i ≤ count) :
    (m.after w i).Bounded w.program.config := by
  induction i with
  | zero => exact hb
  | succ i ih =>
    obtain ⟨s, -, hs⟩ := h i hi
    exact step_bounded (ih (Nat.le_of_lt hi)) hs

theorem Retraces.tallied (ht : m.Tallied) {i : Nat} (hi : i ≤ count) :
    (m.after w i).Tallied := by
  induction i with
  | zero => exact ht
  | succ i ih =>
    obtain ⟨s, -, hs⟩ := h i hi
    exact step_tallied (ih (Nat.le_of_lt hi)) hs

theorem Retraces.placed {n : Nat} (hm : m.Placed n)
    (hc : ∀ i < count, ∀ s, (m.after w i).next? = some s → (m.after w i).CallsBegun w s) {i : Nat}
    (hi : i ≤ count) : (m.after w i).Placed n := by
  induction i with
  | zero => exact hm
  | succ i ih =>
    obtain ⟨s, -, hs⟩ := h i hi
    exact step_placed (ih (Nat.le_of_lt hi)) (hc i hi s (step_cases hs).1) hs

theorem Retraces.linked (hm : m.Linked) (hp : w.pass.Holds Handle.Rooted) (hr : w.streams.Regular)
    {i : Nat} (hi : i ≤ count) : (m.after w i).Linked := by
  induction i with
  | zero => exact hm
  | succ i ih =>
    obtain ⟨s, -, hs⟩ := h i hi
    exact (step_linked (ih (Nat.le_of_lt hi)) hp hr hs).1

/-- A machine of a run that goes on has no result. -/
theorem Retraces.result_none (hm : m.Holds (Handle.Known w.streams.size))
    (hp : w.pass.Holds (Handle.Known w.streams.size)) (hr : w.streams.Regular)
    (hres : m.result = none) {i : Nat} (hi : i < count) : (m.after w i).result = none := by
  induction i with
  | zero => exact hres
  | succ i ih =>
    obtain ⟨s, -, hs⟩ := h i (Nat.lt_of_succ_lt hi)
    obtain ⟨s', -, hs'⟩ := h (i + 1) hi
    have hne := frames_ne_nil_of_next? (step_cases hs').1
    have hknown := h.known hr hm hp (Nat.le_of_lt (Nat.lt_of_succ_lt hi))
    cases step_stage hknown hp hr (ih (Nat.lt_of_succ_lt hi)) hs with
    | going _ result _ _ => exact result
    | completed _ _ frames _ => exact absurd frames hne
    | failed _ _ frames => exact absurd frames hne

end

end ReactiveLang.Machine
