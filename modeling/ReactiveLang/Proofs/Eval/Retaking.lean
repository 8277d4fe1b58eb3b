import ReactiveLang.Proofs.Eval.Keeping

/-!
# Taking a step again

A step reads the streams that its machine knows of, up to the number of its pass, and opens a
stream that is there afterwards. So the same machine takes the same step again over all streams
that have grown from those, and changes none of them.

* `step_known`: the machine after a step knows of no streams but those that are there.
* `step_again`: the step that is taken again.
-/

namespace ReactiveLang

/-- Only the first `count` streams are pointed to, and there is no failure. -/
def Handle.Known (count : Nat) : Handle → Prop
  | .stream id => id.index < count
  | .failure => False
  | _ => True

theorem Handle.Known.mono {n m : Nat} (hle : n ≤ m) (h : Handle) (hn : h.Known n) : h.Known m := by
  cases h with
  | stream id => exact Nat.lt_of_lt_of_le hn hle
  | failure => exact hn
  | _ => trivial

theorem allows_known (w : World) (es : Evaluations) (current : EvaluationId) (node : NodeId)
    (n : Nat) : Allows w es current node (Handle.Known n) := by
  constructor <;> intros <;> trivial

/-- The same step over streams that are there now. -/
def World.again (w : World) (streams : Streams) : World :=
  { w with streams, replaying := true }

/-! ## Reading again -/

namespace World

variable {w : World} {streams : Streams}

theorem seen_again (hx : w.streams.Extends streams w.pass.number) {v : Value}
    (hv : v.Holds (Handle.Known w.streams.size)) : (w.again streams).seen v = w.seen v := by
  cases v with
  | stream id => simp only [seen, again, hx.latestAt? ((Value.holds_stream id).1 hv)]
  | _ => rfl

theorem previousValue_again (hx : w.streams.Extends streams w.pass.number) {stream count : Value}
    (hv : stream.Holds (Handle.Known w.streams.size)) :
    (w.again streams).previousValue stream count = w.previousValue stream count := by
  cases stream with
  | stream id =>
    have hid : id.index < w.streams.size := (Value.holds_stream id).1 hv
    simp only [previousValue, streamHandle, bind, Except.bind, again, hx.previousAt? hid]
  | _ => rfl

theorem outcome_again (hx : w.streams.Extends streams w.pass.number) {operands : List Value}
    (ho : ∀ v ∈ operands, v.Holds (Handle.Known w.streams.size)) (es : Evaluations)
    (current : EvaluationId) (node : NodeId) :
    (w.again streams).outcome es current node operands = w.outcome es current node operands := by
  have hraw := operand_holds ho
  have hseen : ∀ i, (w.again streams).seen (operand operands i) = w.seen (operand operands i) :=
    fun i => seen_again hx (hraw i)
  have hmap : operands.map (w.again streams).seen = operands.map w.seen :=
    List.map_congr_left fun v hv => seen_again hx (ho v hv)
  have hdrop : (operands.drop 1).map (w.again streams).seen = (operands.drop 1).map w.seen :=
    List.map_congr_left fun v hv => seen_again hx (ho v (List.mem_of_mem_drop hv))
  simp only [outcome, hseen, hmap, hdrop, previousValue_again hx (hraw 0)]
  rfl

end World

/-! ## What a step knows -/

namespace Machine

variable {m : Machine} {w : World} {n : Nat}

theorem execute_known {s : Step} {m' : Machine} {streams : Streams}
    (h : m.Holds (Handle.Known n)) (hp : w.pass.Holds (Handle.Known n)) (hr : w.streams.Regular)
    (hn : streams.size ≤ n) (he : m.execute w s = .ok (m', streams)) :
    m'.Holds (Handle.Known n) := by
  refine execute_holds h ⟨fun node _ => allows_known w _ _ node n, ?_, hr.holds, hp⟩ he
  rintro kind node inputs rfl
  have hc := openStream_createdBy w kind node inputs
  exact Nat.lt_of_lt_of_le ((openStream_regular w kind node inputs hr).createdBy?_lt hc) hn

theorem settle_known (h : m.Holds (Handle.Known n)) (hr : w.streams.Regular) :
    (m.settle w).Holds (Handle.Known n) :=
  settle_holds hr.holds h fun _ _ => trivial

/-- A machine that knows only the streams that are there, does so after a step. -/
theorem step_known {s : Step} {m' : Machine} {streams : Streams}
    (h : m.Holds (Handle.Known w.streams.size)) (hp : w.pass.Holds (Handle.Known w.streams.size))
    (hr : w.streams.Regular) (hs : m.step w = some (s, m', streams)) :
    m'.Holds (Handle.Known streams.size) := by
  obtain ⟨hx, hr'⟩ := step_streams hs
  have hle := Handle.Known.mono (hx 0).size_le
  have ha := (h.mono hle).advanced
  obtain ⟨-, ⟨f, -, rfl, -⟩ | ⟨m1, he, rfl⟩⟩ := step_cases hs
  · exact holds_fail ha _
  · exact settle_known (execute_known ha (hp.mono hle) hr (Nat.le_refl _) he) (hr' hr)

/-! ## The step again -/

variable {later : Streams}

/-- The machine that comes out, with the streams that are there now. -/
def withStreams (later : Streams) (r : Machine × Streams) : Machine × Streams := (r.1, later)

theorem perform_again {node : NodeId} {o : Outcome} {pass : Nat}
    (hx : ∀ m' streams, m.perform w node o = .ok (m', streams) → streams.Extends later pass) :
    m.perform (w.again later) node o = (m.perform w node o).map (withStreams later) := by
  cases o with
  | stream kind inputs =>
    have hc := (hx _ _ rfl).createdBy? (openStream_createdBy w kind node inputs)
    simp only [perform, openStream_replaying (w.again later) kind node inputs rfl hc]
    rfl
  | run call =>
    have he : m.enter (w.again later) call = m.enter w call := rfl
    simp only [perform, he]
    cases m.enter w call <;> rfl
  | _ => rfl

theorem finishNode_again (node : NodeId) (hk : m.Holds (Handle.Known w.streams.size))
    (h0 : w.streams.Extends later w.pass.number)
    (hx : ∀ m' streams, m.finishNode w node = .ok (m', streams) →
      streams.Extends later w.pass.number) :
    m.finishNode (w.again later) node = (m.finishNode w node).map (withStreams later) := by
  have hout := World.outcome_again h0 (hk.pop (w.tree.construct node).operandCount).1
    m.evaluations m.current node
  rw [finishNode_eq] at hx ⊢
  rw [finishNode_eq, show (w.again later).tree = w.tree from rfl, hout]
  cases ho : w.outcome m.evaluations m.current node
      (m.pop (w.tree.construct node).operandCount).1 with
  | error kind => rfl
  | ok o => exact perform_again fun m' streams hp => hx m' streams (by rw [ho]; exact hp)

theorem execute_again {s : Step} (hk : m.Holds (Handle.Known w.streams.size))
    (h0 : w.streams.Extends later w.pass.number)
    (hx : ∀ m' streams, m.execute w s = .ok (m', streams) →
      streams.Extends later w.pass.number) :
    m.execute (w.again later) s = (m.execute w s).map (withStreams later) := by
  cases s with
  | start node => rfl
  | check node => rfl
  | jump node count => rfl
  | jumpIf node count when =>
    have hb : m.branch (w.again later) node count when = m.branch w node count when := by
      unfold branch
      simp only [World.seen_again h0 (World.operand_holds (hk.pop 1).1 0)]
      rfl
    simp only [execute, hb]
    cases m.branch w node count when <;> rfl
  | finish node =>
    have hf := finishNode_again node hk h0 fun m' streams hf =>
      hx (if m'.inProgram then m'.remember w node else m') streams (by simp only [execute, hf])
    simp only [execute, hf]
    cases m.finishNode w node <;> rfl

theorem frameResult_again {f : Frame} (hx : w.streams.Extends later w.pass.number)
    (hf : ∀ v ∈ f.values, v.Holds (Handle.Known w.streams.size)) :
    m.frameResult (w.again later) f = m.frameResult w f := by
  have hv : (f.values.headD .nothing).Holds (Handle.Known w.streams.size) := by
    cases hv : f.values with
    | nil => exact Value.holds_nothing
    | cons v rest => exact hf v (by simp [hv])
  unfold frameResult
  rw [World.seen_again hx hv]
  rfl

theorem leave_again {rest : List Frame} {f : Frame} (hx : w.streams.Extends later w.pass.number)
    (hr : w.streams.Regular) (h : m.Holds (Handle.Known w.streams.size))
    (hf : ∀ v ∈ f.values, v.Holds (Handle.Known w.streams.size))
    (hrest : ∀ g ∈ rest, ∀ v ∈ g.values, v.Holds (Handle.Known w.streams.size)) :
    leave (w.again later) f rest m = leave w f rest m := by
  induction rest generalizing f m with
  | nil => simp only [leave, frameResult_again hx hf]
  | cons caller rest ih =>
    simp only [leave, frameResult_again hx hf]
    have hm := returned_holds hr.holds h trivial hf hrest
    have hc := List.forall_mem_cons.1 hm.values
    split
    · split
      · exact ih (rememberCall_holds hm (by simp) _) hc.1 hc.2
      · exact ih hm hc.1 hc.2
    · rfl

theorem settle_again (hx : w.streams.Extends later w.pass.number) (hr : w.streams.Regular)
    (h : m.Holds (Handle.Known w.streams.size)) :
    m.settle (w.again later) = m.settle w := by
  unfold settle
  split
  · rename_i f rest hf
    exact leave_again hx hr h (h.values f (by simp [hf])) fun g hg => h.values g (by simp [hf, hg])
  · rfl

/-- A step that was taken is taken again over all streams that have grown since, by the same
machine and with the same effect on it. -/
theorem step_again {s : Step} {m' : Machine} {streams : Streams}
    (h : m.Holds (Handle.Known w.streams.size)) (hp : w.pass.Holds (Handle.Known w.streams.size))
    (hr : w.streams.Regular) (hs : m.step w = some (s, m', streams))
    (hx : streams.Extends later w.pass.number) :
    m.step (w.again later) = some (s, m', later) := by
  obtain ⟨hgrow, hr'⟩ := step_streams hs
  have h0 := (hgrow w.pass.number).trans hx
  rw [step_eq] at hs ⊢
  obtain ⟨s', hs', hs⟩ := Option.map_eq_some_iff.1 hs
  have heff : effect (w.again later) m s' = (effect w m s').map (withStreams later) := by
    by_cases hl : w.program.config.maxSteps < m.index + 1
    · rw [effect, effect, if_pos hl, if_pos (by exact hl)]
      rfl
    · rw [effect, effect, if_neg hl, if_neg (by exact hl)]
      refine execute_again h.advanced h0 fun m1 streams1 he => ?_
      rw [effect, if_neg hl, he] at hs
      cases hs
      exact hx
  rw [hs', Option.map_some, heff]
  cases he : effect w m s' with
  | error f =>
    rw [he] at hs
    cases hs
    rfl
  | ok r =>
    obtain ⟨m1, streams1⟩ := r
    rw [he] at hs
    cases hs
    have hm1 : m.advanced.execute w s = .ok (m1, streams) := effect_ok he
    have hle := Handle.Known.mono (hgrow 0).size_le
    have hk1 := execute_known (h.advanced.mono hle) (hp.mono hle) hr (Nat.le_refl _) hm1
    have hset := settle_again (w := { w with streams }) hx (hr' hr) hk1
    simp only [Except.map, withStreams, conclude]
    rw [← hset]
    rfl

end Machine
end ReactiveLang
