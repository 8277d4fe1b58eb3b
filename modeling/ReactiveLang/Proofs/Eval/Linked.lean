import ReactiveLang.Proofs.Eval.Keeping
import ReactiveLang.Proofs.Eval.Progress

/-!
# Evaluations that have begun

A machine names only evaluations that have begun: its frames run in them, its values point to them,
and each of them is linked to an earlier one. `step_linked` is kept by every step of a pass whose
kept values name no evaluation but the program's own.
-/

namespace ReactiveLang

/-- A link goes to an earlier evaluation. -/
def Evaluations.Linked (es : Evaluations) : Prop :=
  ∀ id e next, es.find? id = some e → e.closure = some next → next.index < id.index

/-- Only the first `count` evaluations are named. -/
def Handle.Begun (count : Nat) (h : Handle) : Prop :=
  ∀ id, h.evaluation? = some id → id.index < count

theorem Handle.Begun.mono {n m : Nat} (hle : n ≤ m) (h : Handle) (hn : h.Begun n) : h.Begun m :=
  fun id hid => Nat.lt_of_lt_of_le (hn id hid) hle

theorem Handle.Rooted.begun {n : Nat} (hn : 0 < n) (h : Handle) (hr : h.Rooted) : h.Begun n :=
  fun id hid => by rw [hr id hid]; exact hn

/-- What names one evaluation names a begun one. -/
theorem Handle.begun_of_evaluation {n : Nat} {h : Handle} {id : EvaluationId}
    (heq : h.evaluation? = some id) (hid : id.index < n) : h.Begun n := by
  intro id' h'
  rw [heq] at h'
  cases h'
  exact hid

theorem allows_begun {w : World} {es : Evaluations} {current : EvaluationId} {n : Nat}
    (hn : ∀ id, n ≤ id.index → es.find? id = none) (hcur : current.index < n) (node : NodeId) :
    Allows w es current node (Handle.Begun n) where
  function _ _ _ _ _ := Handle.begun_of_evaluation rfl hcur
  structureDef _ _ _ _ := Handle.begun_of_evaluation rfl hcur
  conversionDef _ _ _ _ := Handle.begun_of_evaluation rfl hcur
  memberFunction _ e _ _ _ _ _ _ h _ _ := Handle.begun_of_evaluation rfl (h e rfl)
  memberStructure _ e _ _ _ _ _ h _ _ := Handle.begun_of_evaluation rfl (h e rfl)
  this id e he _ := by
    refine Handle.begun_of_evaluation rfl (Nat.lt_of_not_le fun hle => ?_)
    rw [hn id hle] at he
    cases he
  conversion v target definition output hd hv := by
    clear hd
    refine Handle.begun_of_evaluation rfl ?_
    have hroot : EvaluationId.root.index < n := Nat.lt_of_le_of_lt (Nat.zero_le _) hcur
    unfold World.conversionClosure
    split
    · rename_i object
      split
      · exact ((Value.holds_instanceOf object).1 hv).1 object.evaluation rfl
      · exact hroot
    · exact hroot

namespace Machine

/-- At least `n` evaluations have begun, frames run in begun ones, and links go to earlier ones. -/
structure Placed (n : Nat) (m : Machine) : Prop where
  grown : n ≤ m.evaluations.size
  frames : ∀ f ∈ m.frames, f.evaluation.index < m.evaluations.size
  links : m.evaluations.Linked
  /-- There is no evaluation beyond the newest. -/
  newest : ∀ id : EvaluationId, m.evaluations.size ≤ id.index → m.evaluations.find? id = none

variable {m m' : Machine} {w : World} {streams : Streams} {n : Nat}

section
variable (h : m.Placed n)
include h

theorem Placed.current (hf : m.frames ≠ []) : m.current.index < m.evaluations.size := by
  unfold Machine.current
  cases hfs : m.frames with
  | nil => exact absurd hfs hf
  | cons f rest => exact h.frames f (by simp [hfs])

/-- Other frames, in evaluations that have begun. -/
theorem Placed.withFrames {frames : List Frame}
    (hf : ∀ f ∈ frames, f.evaluation.index < m.evaluations.size)
    (hm : m'.frames = frames ∧ m'.evaluations = m.evaluations) : m'.Placed n := by
  obtain ⟨h1, h2⟩ := hm
  refine ⟨?_, ?_, ?_, ?_⟩ <;> rw [h2]
  · exact h.grown
  · rwa [h1]
  · exact h.links
  · exact h.newest

theorem Placed.congr (hf : m'.frames = m.frames) (he : m'.evaluations = m.evaluations) :
    m'.Placed n := h.withFrames h.frames ⟨hf, he⟩

theorem Placed.withFrame {change : Frame → Frame}
    (hc : ∀ f, (change f).evaluation = f.evaluation) : (m.withFrame change).Placed n := by
  unfold Machine.withFrame
  split
  · rename_i f rest hf
    have hframes := h.frames
    rw [hf] at hframes
    refine h.withFrames (fun g hg => ?_) ⟨rfl, rfl⟩
    rcases List.mem_cons.1 hg with rfl | hg
    · rw [hc]
      exact hframes f (by simp)
    · exact hframes g (by simp [hg])
  · exact h

theorem Placed.skip (count : Nat) : (m.skip count).Placed n := h.withFrame fun _ => rfl

theorem Placed.push (v : Value) : (m.push v).Placed n := h.withFrame fun _ => rfl

theorem Placed.pop (count : Nat) : (m.pop count).2.Placed n := by
  have hpop : (m.pop count).2 = m.withFrame fun f => (f.pop count).2 := by
    unfold Machine.pop Machine.withFrame
    split <;> rfl
  rw [hpop]
  exact h.withFrame fun _ => rfl

theorem Placed.advanced : m.advanced.Placed n :=
  Placed.skip (m := { m with index := m.index + 1, status := .running }) (h.congr rfl rfl) 1

theorem Placed.bind (name : String) (v : Value) : (m.bind name v).Placed n := by
  refine ⟨h.grown, h.frames, fun id e next he hc => ?_, fun id hid => ?_⟩
  · have he' : (Evaluations.bind m.evaluations m.current name v).find? id = some e := he
    rw [Evaluations.find?_bind] at he'
    split at he'
    · obtain ⟨e1, he1, rfl⟩ := Option.map_eq_some_iff.1 he'
      exact h.links id e1 next he1 hc
    · exact h.links id e next he' hc
  · show (Evaluations.bind m.evaluations m.current name v).find? id = _
    rw [Evaluations.find?_bind, h.newest id hid]
    split <;> rfl

theorem Placed.withMemo (memo : List (NodeId × Value)) :
    ({ m with memo } : Machine).Placed n := h.congr rfl rfl

theorem Placed.remember (node : NodeId) : (m.remember w node).Placed n := by
  obtain ⟨memo, hm⟩ := m.remember_eq w node
  rw [hm]
  exact h.withMemo memo

theorem Placed.startNode (node : NodeId) : (m.startNode w node).Placed n := by
  obtain ⟨hstart, -⟩ | ⟨v, -, -, hstart⟩ := m.startNode_cases w node <;> rw [hstart]
  · exact h
  · exact ((h.skip _).withMemo _).push v

theorem Placed.checkReaction (node : NodeId) : (m.checkReaction w node).Placed n :=
  checkReaction_keeps node h (fun _ _ _ => h.bind _ _) fun _ _ h1 => h1.skip _

theorem Placed.branch {node : NodeId} {count : Nat} {when : Bool}
    (hb : m.branch w node count when = .ok m') : m'.Placed n := by
  have hp := h.pop 1
  obtain ⟨b, -, ⟨-, rfl⟩ | ⟨-, -, rfl⟩ | ⟨-, -, rfl⟩⟩ := branch_cases hb
  · exact hp
  · exact hp.skip count
  · exact (hp.skip count).push _

/-- A call begins an evaluation that is linked to one that had begun. -/
theorem Placed.enter {call : Call} (hc : call.closure.index < m.evaluations.size)
    (he : m.enter w call = .ok m') : m'.Placed n := by
  obtain ⟨name, counts, -, -, -, rfl⟩ := enter_cases he
  have hclosure : ∀ inputs, (bindInputs w.tree inputs call.arguments
      { Evaluation.start call.kind call.definition (some call.closure) with
        subject := call.subject }).closure = some call.closure :=
    fun inputs => (bindInputs_fields _ _ _ _).2
  refine ⟨Nat.le_succ_of_le h.grown, fun f hf => ?_, fun id e next he hnext => ?_,
    fun id hid => ?_⟩
  · rcases List.mem_cons.1 hf with rfl | hf
    · exact Nat.lt_succ_self _
    · exact Nat.lt_succ_of_lt (h.frames f hf)
  · dsimp only at he
    rw [Evaluations.find?_begin] at he
    split at he
    · rename_i hid
      cases he
      rw [hclosure] at hnext
      cases hnext
      rw [hid]
      exact hc
    · exact h.links id e next he hnext
  · dsimp only at hid ⊢
    rw [Evaluations.find?_begin, if_neg, h.newest id (Nat.le_of_succ_le hid)]
    rintro rfl
    exact absurd hid (Nat.not_succ_le_self _)

theorem Placed.perform {node : NodeId} {o : Outcome}
    (ho : ∀ call, o = .run call → call.closure.index < m.evaluations.size)
    (hp : m.perform w node o = .ok (m', streams)) : m'.Placed n := by
  cases o with
  | keep => cases hp; exact h
  | value v => cases hp; exact h.push v
  | named name v => cases hp; exact (h.bind name v).push v
  | reaction v =>
    cases hp
    have hm : ({ m with reactions := Keyed.insert node v m.reactions } : Machine).Placed n :=
      h.congr rfl rfl
    exact hm.push v
  | stream kind inputs => cases hp; exact h.push _
  | run call =>
    obtain ⟨m1, hm, hp⟩ := bind_eq_ok hp
    cases hp
    exact h.enter (ho call rfl) hm

end

/-! ## Leaving frames -/

/-- Frames that are left stay as they are, but for the values. -/
theorem leave_frames (w : World) (f : Frame) (rest : List Frame) (m : Machine) :
    ∀ g ∈ (leave w f rest m).frames, ∃ g' ∈ f :: rest, ∃ values, g = { g' with values } := by
  induction rest generalizing f m with
  | nil =>
    unfold leave
    split
    · exact fun _ hg => absurd hg List.not_mem_nil
    · exact fun g hg => ⟨g, hg, g.values, rfl⟩
  | cons caller rest ih =>
    unfold leave
    split
    · intro g hg
      obtain ⟨g', hg', values, rfl⟩ := ih _ _ g hg
      rcases List.mem_cons.1 hg' with rfl | hg'
      · exact ⟨caller, by simp, values, rfl⟩
      · exact ⟨g', by simp [hg'], values, rfl⟩
    · exact fun g hg => ⟨g, hg, g.values, rfl⟩

theorem settle_frames (w : World) (m : Machine) :
    ∀ g ∈ (m.settle w).frames, ∃ g' ∈ m.frames, ∃ values, g = { g' with values } := by
  unfold Machine.settle
  split
  · rename_i f rest hf
    rw [hf]
    exact leave_frames w f rest m
  · exact fun g hg => ⟨g, hg, g.values, rfl⟩

theorem settle_evaluations (w : World) (m : Machine) :
    (m.settle w).evaluations = m.evaluations := by
  obtain ⟨_, _, _, _, heq⟩ := m.settle_eq w
  rw [heq]

theorem Placed.settle (h : m.Placed n) : (m.settle w).Placed n := by
  refine h.withFrames (fun g hg => ?_) ⟨rfl, settle_evaluations w m⟩
  obtain ⟨g', hg', values, rfl⟩ := settle_frames w m g hg
  exact h.frames g' hg'

theorem Placed.fail (h : m.Placed n) (f : Failure) : (m.fail f).Placed n :=
  ⟨h.grown, nofun, h.links, h.newest⟩

/-! ## Steps -/

/-- The machine names only evaluations that have begun. -/
structure Linked (m : Machine) : Prop where
  holds : m.Holds (Handle.Begun m.evaluations.size)
  placed : m.Placed m.evaluations.size

theorem linked_start (p : Program) : (Machine.start p).Linked := by
  refine ⟨holds_start p, Nat.le_refl _, fun f hf => ?_, fun id e next he hc => ?_,
    fun id hid => ?_⟩
  · cases List.mem_singleton.1 hf
    exact Nat.one_pos
  · rw [find?_start] at he
    split at he
    · cases he
      cases hc
    · cases he
  · rw [find?_start, if_neg]
    rintro rfl
    exact absurd hid (Nat.not_le_of_gt Nat.one_pos)

/-- The evaluation whose names a call sees has begun. -/
theorem Linked.closure_lt (h : m.Linked) (hf : m.frames ≠ []) (hr : w.streams.Regular)
    {node : NodeId} {count : Nat} {call : Call}
    (ho : w.outcome m.evaluations m.current node (m.pop count).1 = .ok (.run call)) :
    call.closure.index < m.evaluations.size := by
  have ha : Allows w m.evaluations m.current node (Handle.Begun m.evaluations.size) :=
    allows_begun h.placed.newest (h.placed.current hf) node
  have hcall : call.Holds (Handle.Begun m.evaluations.size) :=
    World.outcome_holds ha hr.holds h.holds.evaluations (h.holds.pop _).1 ho
  refine hcall.callable call.closure ?_
  unfold Call.callable
  split <;> rfl

/-- The step calls nothing but definitions that see the names of evaluations that have begun. -/
def CallsBegun (w : World) (m : Machine) (s : Step) : Prop :=
  ∀ node call, s = .finish node →
    w.outcome m.evaluations m.current node (m.pop (w.tree.construct node).operandCount).1 =
      .ok (.run call) → call.closure.index < m.evaluations.size

/-- The effect of a step that calls only what has begun. -/
theorem execute_placed {s : Step} (h : m.Placed n) (hc : m.CallsBegun w s)
    (he : m.execute w s = .ok (m', streams)) : m'.Placed n := by
  cases executes he with
  | start node => exact h.startNode node
  | check node => exact h.checkReaction node
  | jump node count => exact h.skip count
  | jumpIf branched => exact h.branch branched
  | @finish node o m1 _ outcome performed =>
    have h1 := (h.pop (w.tree.construct node).operandCount).perform (fun call hrun => by
      rw [pop_evaluations]
      exact hc node call rfl (hrun ▸ outcome)) performed
    split
    · exact h1.remember node
    · exact h1

theorem advanced_evaluations (m : Machine) : m.advanced.evaluations = m.evaluations :=
  skip_evaluations (m := { m with index := m.index + 1, status := .running }) 1

theorem advanced_inProgram (m : Machine) : m.advanced.inProgram = m.inProgram := by
  unfold Machine.advanced Machine.skip Machine.withFrame Machine.inProgram
  dsimp only
  cases m.frames <;> rfl

theorem Linked.advanced (h : m.Linked) : m.advanced.Linked := by
  constructor <;> rw [advanced_evaluations]
  · exact h.holds.advanced
  · exact h.placed.advanced

theorem advanced_frames (hf : m.frames ≠ []) : m.advanced.frames ≠ [] := by
  unfold Machine.advanced Machine.skip Machine.withFrame
  split
  · simp
  · rename_i hnil
    exact absurd hnil hf

section
variable (h : m.Linked) (hp : w.pass.Holds Handle.Rooted) (hr : w.streams.Regular)
include h hp hr

/-- The effect of a step names no evaluation that has not begun, if the values of the pass before
name none but the program's own. -/
theorem execute_linked {s : Step} (hf : m.frames ≠ []) (he : m.execute w s = .ok (m', streams)) :
    m'.Linked ∧ m.evaluations.size ≤ m'.evaluations.size := by
  have hcur := h.placed.current hf
  have hmakes : Makes w m s streams (Handle.Begun m.evaluations.size) :=
    { node := fun node _ => allows_begun h.placed.newest hcur node
      opened := fun _ _ _ _ _ hid => nomatch hid
      streams := hr.holds
      pass := hp.mono (Handle.Rooted.begun (Nat.zero_lt_of_lt hcur)) }
  have hplaced := execute_placed h.placed (fun _ _ _ ho => h.closure_lt hf hr ho) he
  exact ⟨⟨(execute_holds h.holds hmakes he).mono (Handle.Begun.mono hplaced.grown),
    Nat.le_refl _, hplaced.frames, hplaced.links, hplaced.newest⟩, hplaced.grown⟩

/-- So it is after a whole step. -/
theorem step_linked {s : Step} (hs : m.step w = some (s, m', streams)) :
    m'.Linked ∧ m.evaluations.size ≤ m'.evaluations.size := by
  have ha := h.advanced
  rw [← m.advanced_evaluations]
  obtain ⟨hnext, hcase⟩ := step_cases hs
  obtain ⟨f, -, rfl, -⟩ | ⟨m1, he, rfl⟩ := hcase
  · exact ⟨⟨holds_fail ha.holds f, ha.placed.fail f⟩, Nat.le_refl _⟩
  · obtain ⟨h1, hle⟩ := execute_linked ha hp hr (advanced_frames (frames_ne_nil_of_next? hnext)) he
    have hset : (m1.settle { w with streams }).Holds (Handle.Begun m1.evaluations.size) :=
      settle_holds ((execute_streams he).2 hr).holds h1.holds fun g hg =>
        Handle.begun_of_evaluation rfl (h1.placed.frames g hg)
    have hsize := settle_evaluations { w with streams } m1
    refine ⟨⟨?_, ?_⟩, ?_⟩ <;> rw [hsize]
    · exact hset
    · exact h1.placed.settle
    · exact hle

end

end Machine

end ReactiveLang
