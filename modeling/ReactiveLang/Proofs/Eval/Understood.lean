import ReactiveLang.Proofs.Analysis.Understood
import ReactiveLang.Proofs.Eval.Limits
import ReactiveLang.Proofs.Eval.Reaching

/-!
# Running what was understood

A pass would end for source that was not understood at a node that was not, or at the call of
something that is no function and no structure. Neither comes about: what can be called names a
definition of its own kind (`Handle.OfKind`), and the nodes that a step uses are reached by the
root.

* `effect_unparsable`: the only two steps that fail for source that was not understood.
* `step_ofKind`, `step_understood`: what a step keeps.
* `InTree.uses_reaches`: a step uses nodes that the root reaches (`Machine.Uses`): its own, the
  definitions that are running or called, and the conversions that are looked at.
-/

namespace ReactiveLang

/-! ## Definitions of their own kind -/

/-- What can be called names a definition of its own kind; and there is no failure inside of a
value. -/
def Handle.OfKind (t : Tree) : Handle → Prop
  | .callable (.function definition _) => ∃ name inputs output body,
      t.construct definition = .functionDef name inputs output body
  | .callable (.structureDef definition _) => ∃ name inputs body,
      t.construct definition = .structureDef name inputs body
  | .callable (.conversion definition _) => ∃ input output body,
      t.construct definition = .conversionDef input output body
  | .callable (.text _ _) | .callable (.stream _) | .stream _ | .instanceOf _ _ => True
  | .failure => False

theorem Handle.OfKind.ne_failure {t : Tree} {h : Handle} (hk : h.OfKind t) : h ≠ .failure := by
  rintro rfl
  exact hk

/-- Every node makes handles of their own kind only. -/
theorem allows_ofKind (w : World) (es : Evaluations) (current : EvaluationId) (node : NodeId) :
    Allows w es current node (Handle.OfKind w.tree) where
  function name inputs output body hc := ⟨name, inputs, output, body, hc⟩
  structureDef name inputs body hc := ⟨name, inputs, body, hc⟩
  conversionDef input output body hc := ⟨input, output, body, hc⟩
  memberFunction _ _ _ _ name inputs output body _ _ hc := ⟨name, inputs, output, body, hc⟩
  memberStructure _ _ _ _ name inputs body _ _ hc := ⟨name, inputs, body, hc⟩
  this _ _ _ _ := trivial
  conversion _ _ _ _ hd _ := (Tree.conversion?_place hd).1

namespace Machine

variable {m m' : Machine} {w : World} {s : Step} {streams : Streams}

/-- A call of a function, a structure or a conversion has a name in messages, or lacks a body. -/
theorem callName_ne_unparsable {t : Tree} {call : Call}
    (h : Handle.OfKind t (.callable call.callable)) : callName t call ≠ .error .unparsable := by
  unfold Call.callable at h
  unfold callName
  cases hk : call.kind <;> rw [hk] at h <;> dsimp only at h ⊢
  case conversion => exact nofun
  case structureDef =>
    obtain ⟨name, inputs, body, hc⟩ := h
    rw [hc]
    dsimp only
    split <;> exact nofun
  all_goals
    obtain ⟨name, inputs, output, body, hc⟩ := h
    rw [hc]
    dsimp only
    split <;> exact nofun

/-! ## Failures for source that was not understood -/

theorem enter_unparsable {call : Call} (h : m.enter w call = .error .unparsable) :
    callName w.tree call = .error .unparsable := by
  unfold enter at h
  obtain hn | ⟨name, -, h⟩ := bind_eq_error h
  · exact hn
  obtain hc | ⟨m1, -, h⟩ := bind_eq_error h
  · cases countCall_refuses hc
  · dsimp only at h
    split at h <;> cases h

theorem finishNode_unparsable {node : NodeId} (h : m.finishNode w node = .error .unparsable) :
    m.outcomeOf w node = .error .unparsable ∨ ∃ call, m.outcomeOf w node = .ok (.run call) ∧
      callName w.tree call = .error .unparsable := by
  rw [finishNode_eq] at h
  obtain ho | ⟨o, ho, h⟩ := bind_eq_error h
  · exact .inl ho
  · cases o with
    | run call =>
      obtain he | ⟨m1, -, h⟩ := bind_eq_error h
      · exact .inr ⟨call, ho, enter_unparsable he⟩
      · cases h
    | _ => cases h

/-- A step that fails for source that was not understood finishes a node that was not, or calls what
is neither a function nor a structure. -/
theorem effect_unparsable {node : NodeId} (h : effect w m s = .error ⟨.unparsable, node⟩) :
    s = .finish node ∧ (m.outcomeOf w node = .error .unparsable ∨
      ∃ call, m.outcomeOf w node = .ok (.run call) ∧
        callName w.tree call = .error .unparsable) := by
  unfold effect at h
  split at h
  · cases h
  · cases execute_fails h with
    | finish failed =>
      have hcases := finishNode_unparsable failed
      simp only [outcomeOf_advanced] at hcases
      exact ⟨rfl, hcases⟩

/-! ## Steps -/

section
variable (h : m.Holds (Handle.OfKind w.tree)) (hr : w.streams.Regular)
include h hr

theorem call_ofKind {node : NodeId} {call : Call} (ho : m.outcomeOf w node = .ok (.run call)) :
    Handle.OfKind w.tree (.callable call.callable) :=
  (World.outcome_holds (allows_ofKind w _ _ node) hr.holds h.evaluations (h.pop _).1 ho).callable

/-- What was understood never fails because it was not. -/
theorem effect_ne_unparsable (hnode : ∀ text, w.tree.construct s.node ≠ .unparsable text)
    {f : Failure} (hf : effect w m s = .error f) : f.kind ≠ .unparsable := by
  obtain ⟨kind, node⟩ := f
  rintro rfl
  obtain ⟨rfl, ho | ⟨call, ho, hname⟩⟩ := effect_unparsable hf
  · exact (World.outcome_plain hr.holds (h.pop _).1 hnode _ ho).2 rfl
  · exact callName_ne_unparsable (call_ofKind h hr ho) hname

variable (hp : w.pass.Holds (Handle.OfKind w.tree))
include hp

theorem execute_ofKind (he : m.execute w s = .ok (m', streams)) :
    m'.Holds (Handle.OfKind w.tree) :=
  execute_holds h ⟨fun node _ => allows_ofKind w _ _ node, fun _ _ _ _ => trivial, hr.holds, hp⟩ he

/-- What can be called stays of its own kind. -/
theorem step_ofKind (hs : m.step w = some (s, m', streams)) : m'.Holds (Handle.OfKind w.tree) := by
  obtain ⟨-, ⟨f, -, rfl, -⟩ | ⟨m1, he, rfl⟩⟩ := step_cases hs
  · exact holds_fail h.advanced f
  · exact settle_holds (w := { w with streams }) ((execute_streams he).2 hr).holds
      (execute_ofKind h.advanced hr hp he) fun _ _ => trivial

/-- A step of what was understood does not end the pass because it was not. -/
theorem step_understood (hres : m.result = none)
    (hnode : ∀ text, w.tree.construct s.node ≠ .unparsable text)
    (hs : m.step w = some (s, m', streams)) {v : Value} (hv : m'.result = some v) (node : NodeId) :
    v ≠ .exception .unparsable node := by
  obtain ⟨-, ⟨f, hf, rfl, -⟩ | ⟨m1, he, rfl⟩⟩ := step_cases hs
  · obtain ⟨kind, place⟩ := f
    rintro rfl
    cases hv
    exact effect_ne_unparsable h hr hnode hf rfl
  · have hnone : m1.result = none :=
      (execute_result he).trans ((sameGiven_advanced m).result.trans hres)
    have hholds : (m1.settle { w with streams }).ResultHolds (Handle.OfKind w.tree) := by
      refine settle_resultHolds (w := { w with streams }) ((execute_streams he).2 hr).holds
        (execute_ofKind h.advanced hr hp he) (fun _ _ => trivial) fun u hu => ?_
      rw [hnone] at hu
      cases hu
    exact ne_exception_of_clean ((hholds v hv).mono fun _ => Handle.OfKind.ne_failure) _ _

end

/-- All machines of a run call definitions of their own kind. -/
theorem Retraces.ofKind {count : Nat} {steps : Nat → Option Step}
    (hrun : m.Retraces w count steps) (h : m.Holds (Handle.OfKind w.tree)) (hr : w.streams.Regular)
    (hp : w.pass.Holds (Handle.OfKind w.tree)) {i : Nat} (hi : i ≤ count) :
    (m.after w i).Holds (Handle.OfKind w.tree) := by
  induction i with
  | zero => exact h
  | succ i ih =>
    obtain ⟨s, -, hs⟩ := hrun i hi
    exact step_ofKind (ih (Nat.le_of_lt hi)) hr hp hs

/-! ## What a step uses -/

/-- The nodes that a machine needs for its next step: the node of the step, the definitions that are
running, a definition that is called, with its inputs, and what is looked at for a conversion. -/
inductive Uses (w : World) (m : Machine) : NodeId → Prop where
  | step {s : Step} (next : m.next? = some s) : Uses w m s.node
  | running {f : Frame} {e : Evaluation} (frame : f ∈ m.frames)
      (found : m.evaluations.find? f.evaluation = some e) : Uses w m e.definition
  | called {node : NodeId} {call : Call} (next : m.next? = some (.finish node))
      (calls : m.outcomeOf w node = .ok (.run call)) : Uses w m call.definition
  | input {node input : NodeId} {call : Call} (next : m.next? = some (.finish node))
      (calls : m.outcomeOf w node = .ok (.run call))
      (declared : input ∈ w.tree.inputsOf call.definition) : Uses w m input
  | consulted {node expression : NodeId} {target : Annotation} {c : Ty × NodeId}
      (next : m.next? = some (.finish node))
      (converts : w.tree.construct node = .convert expression target)
      (looked : c ∈ w.tree.consulted (w.seen (World.operand (m.pop 1).1 0)).typeOf node) :
      Uses w m c.2

section
variable (hw : Ready w) (h : m.InTree w.tree)
  (hnext : ∀ s, m.next? = some s → w.tree.Reaches s.node)
include hw h hnext

theorem InTree.outcome_reaches {node : NodeId} {call : Call} (hn : m.next? = some (.finish node))
    (ho : m.outcomeOf w node = .ok (.run call)) : w.tree.Reaches call.definition := by
  obtain ⟨f, below, hf, -⟩ := frames_of_next? hn
  rw [outcomeOf_eq hf] at ho
  exact h.call_reaches hw (hnext _ hn) rfl ⟨hf, rfl⟩ ho

/-- Whatever is used is reached by the root. -/
theorem InTree.uses_reaches {id : NodeId} (hu : m.Uses w id) : w.tree.Reaches id := by
  cases hu with
  | step next => exact hnext _ next
  | running frame found => exact h.definitions _ _ found
  | called next calls => exact h.outcome_reaches hw hnext next calls
  | input next calls declared => exact (h.outcome_reaches hw hnext next calls).input declared
  | consulted next _ looked =>
    refine hw.wellFormed.consulted_reaches (hnext _ next) (fun definition name hd => ?_) looked
    have hoperand := World.seen_holds hw.streams (World.operand_holds (h.holds.pop 1).1 0)
    obtain ⟨object, hobject, rfl⟩ := Value.instanceOf_of_mem_members hd
    rw [hobject] at hoperand
    exact ((Value.holds_instanceOf object).1 hoperand).1

end

end Machine
end ReactiveLang
