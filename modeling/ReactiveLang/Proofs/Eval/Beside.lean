import ReactiveLang.Proofs.Eval.Retracing
import ReactiveLang.Proofs.Eval.Runs

/-!
# Steps over streams that a pass cannot tell apart

Ticks change the clocks of streams and add values for later passes. A step sees neither: over
streams that are alike for its pass, a machine takes the same step, becomes the same machine and
leaves streams that are alike again, also when the step is taken again (`step_beside`). So a pass
that is run once more over the streams that it has left comes to the same machines
(`Retraces.run`).
-/

namespace ReactiveLang

/-- The world with other streams, where steps are new ones or are taken again. -/
def World.beside (w : World) (streams : Streams) (replaying : Bool) : World :=
  { w with streams, replaying }

/-! ## Reading -/

namespace World

variable {w : World} {streams : Streams} (ha : w.streams.Alike streams w.pass.number)
  {replaying : Bool}
include ha

theorem seen_beside (v : Value) : (w.beside streams replaying).seen v = w.seen v := by
  cases v with
  | stream id => simp only [seen, beside, ha.latestAt? id]
  | _ => rfl

theorem previousValue_beside (stream count : Value) :
    (w.beside streams replaying).previousValue stream count = w.previousValue stream count := by
  cases stream with
  | stream id =>
    simp only [previousValue, streamHandle, bind, Except.bind, beside, ha.previousAt? id]
  | _ => rfl

theorem outcome_beside (es : Evaluations) (current : EvaluationId) (node : NodeId)
    (operands : List Value) :
    (w.beside streams replaying).outcome es current node operands =
      w.outcome es current node operands := by
  have hseen : (w.beside streams replaying).seen = w.seen := funext (seen_beside ha)
  simp only [outcome, hseen, previousValue_beside ha]
  rfl

end World

/-! ## Steps -/

namespace Machine

/-- The same failure, or the same machine with streams that the pass cannot tell apart. -/
inductive SameEffect {ε : Type} (pass : Nat) :
    Except ε (Machine × Streams) → Except ε (Machine × Streams) → Prop where
  | ok (m : Machine) {streams streams' : Streams} (h : streams.Alike streams' pass) :
      SameEffect pass (.ok (m, streams)) (.ok (m, streams'))
  | error (e : ε) : SameEffect pass (.error e) (.error e)

variable {m : Machine} {w : World} {streams : Streams}

/-- A call of a stream that is there leaves all but its settings as they are. -/
theorem openStream_found {node : NodeId} {id : StreamId} (hid : w.streams.createdBy? node = some id)
    (kind : StreamKind) (inputs : List Value) (pass : Nat) :
    (openStream w kind node inputs).1 = id ∧
      w.streams.Alike (openStream w kind node inputs).2 pass := by
  unfold openStream
  rw [hid]
  dsimp only
  split
  · exact ⟨rfl, .refl _ _⟩
  · exact ⟨rfl, .configure _ _ _ _⟩

variable (ha : w.streams.Alike streams w.pass.number) (replaying : Bool)
include ha

/-- The same call opens the same stream. -/
theorem openStream_beside (kind : StreamKind) (node : NodeId) (inputs : List Value) :
    (openStream (w.beside streams replaying) kind node inputs).1 =
        (openStream w kind node inputs).1 ∧
      (openStream w kind node inputs).2.Alike
        (openStream (w.beside streams replaying) kind node inputs).2 w.pass.number := by
  have hcreated : (w.beside streams replaying).streams.createdBy? node =
      w.streams.createdBy? node := ha.createdBy? node
  cases hid : w.streams.createdBy? node with
  | some id =>
    obtain ⟨hfirst, halike⟩ := openStream_found hid kind inputs w.pass.number
    obtain ⟨hsecond, halike'⟩ :=
      openStream_found (hcreated.trans hid) kind inputs w.pass.number
    exact ⟨hsecond.trans hfirst.symm, halike.symm.trans (ha.trans halike')⟩
  | none =>
    unfold openStream
    rw [hcreated, hid]
    exact ⟨congrArg StreamId.mk ha.size, ha.create kind node inputs inputs _ _⟩

theorem perform_beside (node : NodeId) (o : Outcome) :
    SameEffect w.pass.number (m.perform w node o)
      (m.perform (w.beside streams replaying) node o) := by
  cases o with
  | stream kind inputs =>
    obtain ⟨hid, halike⟩ := openStream_beside ha replaying kind node inputs
    simp only [perform, hid]
    exact .ok _ halike
  | run call =>
    have he : m.enter (w.beside streams replaying) call = m.enter w call := rfl
    simp only [perform, he]
    cases m.enter w call with
    | ok m' => exact .ok m' ha
    | error kind => exact .error kind
  | _ => exact .ok _ ha

theorem finishNode_beside (node : NodeId) :
    SameEffect w.pass.number (m.finishNode w node)
      (m.finishNode (w.beside streams replaying) node) := by
  have htree : (w.beside streams replaying).tree = w.tree := rfl
  rw [finishNode_eq, finishNode_eq, htree, World.outcome_beside ha]
  cases w.outcome m.evaluations m.current node
      (m.pop (w.tree.construct node).operandCount).1 with
  | ok o => exact perform_beside ha replaying node o
  | error kind => exact .error kind

theorem branch_beside (node : NodeId) (count : Nat) (when : Bool) :
    m.branch (w.beside streams replaying) node count when = m.branch w node count when := by
  unfold branch
  simp only [World.seen_beside ha]
  rfl

theorem execute_beside (s : Step) :
    SameEffect w.pass.number (m.execute w s) (m.execute (w.beside streams replaying) s) := by
  cases s with
  | start node => exact .ok _ ha
  | check node => exact .ok _ ha
  | jump node count => exact .ok _ ha
  | jumpIf node count when =>
    simp only [execute, branch_beside ha replaying]
    cases m.branch w node count when with
    | ok m' => exact .ok m' ha
    | error f => exact .error f
  | finish node =>
    have hf := finishNode_beside (m := m) ha replaying node
    simp only [execute]
    generalize m.finishNode w node = x at hf ⊢
    generalize m.finishNode (w.beside streams replaying) node = y at hf ⊢
    cases hf with
    | ok m' h => exact .ok _ h
    | error kind => exact .error _

theorem frameResult_beside (f : Frame) :
    m.frameResult (w.beside streams replaying) f = m.frameResult w f := by
  unfold frameResult
  rw [World.seen_beside ha]
  rfl

theorem leave_beside (f : Frame) (rest : List Frame) :
    leave (w.beside streams replaying) f rest m = leave w f rest m := by
  induction rest generalizing f m with
  | nil => simp only [leave, frameResult_beside ha replaying]
  | cons caller rest ih =>
    have hcall : ∀ (m : Machine) g,
        m.rememberCall (w.beside streams replaying) g = m.rememberCall w g := fun _ _ => rfl
    simp only [leave, ih, frameResult_beside ha replaying, hcall]

theorem settle_beside : m.settle (w.beside streams replaying) = m.settle w := by
  unfold settle
  split
  · exact leave_beside ha replaying _ _
  · rfl

/-- Over streams that are alike, the same step leads to the same machine. -/
theorem step_beside :
    (m.step w = none ∧ m.step (w.beside streams replaying) = none) ∨
      ∃ s m' after after', m.step w = some (s, m', after) ∧
        m.step (w.beside streams replaying) = some (s, m', after') ∧
          after.Alike after' w.pass.number := by
  rw [step_eq, step_eq]
  cases m.next? with
  | none => exact .inl ⟨rfl, rfl⟩
  | some s =>
    have heffect : SameEffect w.pass.number (effect w m s)
        (effect (w.beside streams replaying) m s) := by
      unfold effect
      rw [show (w.beside streams replaying).program = w.program from rfl]
      split
      · exact .error _
      · exact execute_beside ha replaying s
    refine .inr ?_
    simp only [Option.map_some]
    generalize effect w m s = x at heffect ⊢
    generalize effect (w.beside streams replaying) m s = y at heffect ⊢
    cases heffect with
    | @ok m' after after' h =>
      refine ⟨s, m'.settle { w with streams := after }, after, after', rfl, ?_, h⟩
      have hs := settle_beside (m := m') (w := { w with streams := after }) h replaying
      exact congrArg (fun m => some (s, m, after')) hs
    | error f => exact ⟨s, m.advanced.fail f, w.streams, streams, rfl, rfl, ha⟩

omit ha in
/-- A pass whose streams are all there takes the steps that it has taken, also as new ones. -/
theorem Retraces.run {count : Nat} {steps : Nat → Option Step} (h : m.Retraces w count steps)
    {i : Nat} (hi : i ≤ count) : ∃ streams, Pass.run w.program w.pass i (m, w.streams) =
      (m.after w i, streams) ∧ w.streams.Alike streams w.pass.number := by
  induction i with
  | zero => exact ⟨w.streams, rfl, .refl _ _⟩
  | succ i ih =>
    obtain ⟨streams, hrun, halike⟩ := ih (Nat.le_of_lt hi)
    obtain ⟨s, -, hs⟩ := h i hi
    obtain ⟨hnone, -⟩ | ⟨s', m', after, after', hstep, hstep', hafter⟩ :=
      step_beside (m := m.after w i) halike false
    · rw [hs] at hnone
      cases hnone
    · cases hs.symm.trans hstep
      refine ⟨after', ?_, hafter⟩
      have hlast : (m.after w i).step ⟨w.program, w.pass, streams, false⟩ =
          some (s, m.after w (i + 1), after') := hstep'
      rw [Pass.run_add, hrun, Pass.run]
      dsimp only
      rw [hlast]
      rfl

end Machine
end ReactiveLang
