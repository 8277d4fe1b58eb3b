import ReactiveLang.Proofs.Eval.Direct
import ReactiveLang.Proofs.Eval.Progress
import ReactiveLang.Proofs.Eval.Rooted

/-!
# Runs of a pass

`Pass.run` takes step after step. A machine is compared with a `Scene`: `s.At r frames c` says that
`c` has these frames and, for the rest, what the scene has, and that what it remembers is such as `r`
allows.

* `Frame.Runs`: some code comes next in a frame.
* `Pass.settled_leave`, `Pass.settled_end`: a frame that is done is left.
* `Scene.Grows`: at least as much was done.
-/

namespace ReactiveLang

/-- The program was stopped for doing too much. -/
def ExceptionKind.isLimit {V : Type} : ExceptionKind V → Bool
  | stepLimit | callDepthLimit | evaluationLimit _ => true
  | _ => false

/-! ## Frames -/

namespace Frame

variable {f : Frame} {a b : List Step}

/-- The frame further on in its steps, with some values more. -/
def passed (f : Frame) (count : Nat) (values : List Value) : Frame :=
  { f with position := f.position + count, values := values ++ f.values }

@[simp] theorem passed_evaluation (f : Frame) (count : Nat) (values : List Value) :
    (f.passed count values).evaluation = f.evaluation := rfl

@[simp] theorem passed_values (f : Frame) (count : Nat) (values : List Value) :
    (f.passed count values).values = values ++ f.values := rfl

@[simp] theorem passed_passed (f : Frame) (n m : Nat) (us vs : List Value) :
    (f.passed n us).passed m vs = f.passed (n + m) (vs ++ us) := by
  simp [passed, Nat.add_assoc]

/-- These steps come next. -/
def Runs (f : Frame) (code : List Step) : Prop := code <+: f.steps.toList.drop f.position

/-- Steps in the middle of those that come next. -/
theorem Runs.part {code : List Step} (h : f.Runs code) (before steps rest : List Step) {n : Nat}
    (hcode : code = before ++ (steps ++ rest)) (hn : n = before.length) (values : List Value) :
    (f.passed n values).Runs steps := by
  obtain ⟨more, hr⟩ := h
  refine ⟨rest ++ more, ?_⟩
  show _ = f.steps.toList.drop (f.position + n)
  rw [← List.drop_drop, ← hr, hcode, hn, List.append_assoc, List.append_assoc, List.drop_left]

theorem Runs.left (h : f.Runs (a ++ b)) : f.Runs a := (List.prefix_append a b).trans h

theorem Runs.right (h : f.Runs (a ++ b)) (values : List Value) : (f.passed a.length values).Runs b :=
  h.part a b [] (by simp) rfl values

theorem Runs.next? {s : Step} (h : f.Runs (s :: a)) : f.next? = some s := by
  obtain ⟨rest, hr⟩ := h
  have hd := congrArg List.head? hr
  rw [List.head?_drop] at hd
  simpa [Frame.next?] using hd.symm

theorem isDone_of_next? {s : Step} (h : f.next? = some s) : f.isDone = false := by
  obtain ⟨hlt, -⟩ := Array.getElem?_eq_some_iff.1 h
  exact decide_eq_false (Nat.not_le_of_gt hlt)

theorem exists_next? (h : f.isDone = false) : ∃ s, f.next? = some s :=
  ⟨_, Array.getElem?_eq_getElem (Nat.lt_of_not_le (of_decide_eq_false h))⟩

end Frame

/-! ## Scenes -/

/-- What may be remembered of nodes while there are so many streams. -/
structure Recall where
  allows : Nat → NodeId → Value → Prop
  /-- More streams take nothing away. -/
  more : ∀ {n n' : Nat} {node : NodeId} {v : Value}, n ≤ n' → allows n node v → allows n' node v

namespace Scene

variable {r : Recall} {s s' : Scene}

/-- The scene is that of a machine with these frames, which remembers what `r` allows. -/
structure At (s : Scene) (r : Recall) (frames : List Frame) (c : Machine × Streams) : Prop where
  frames : c.1.frames = frames
  evaluations : c.1.evaluations = s.evaluations
  reactions : c.1.reactions = s.reactions
  calls : c.1.callCounts = s.calls
  index : c.1.index = s.steps
  streams : c.2 = s.streams
  memo : ∀ e ∈ c.1.memo, r.allows c.2.size e.1 e.2

/-- What a failure leaves of a machine over the scene. -/
structure Leaves (s : Scene) (r : Recall) (m : Machine) : Prop where
  reactions : m.reactions = s.reactions
  memo : ∀ e ∈ m.memo, r.allows s.streams.size e.1 e.2

theorem At.leaves {frames : List Frame} {m : Machine} (h : s.At r frames (m, s.streams)) :
    s.Leaves r m := ⟨h.reactions, h.memo⟩

/-- No value of the scene names a definition outside the tree. -/
structure InTree (t : Tree) (s : Scene) : Prop where
  evaluations : s.evaluations.Holds (Handle.InTree t)
  definitions : ∀ id e, s.evaluations.find? id = some e → t.Reaches e.definition
  streams : s.streams.Holds (Handle.InTree t)

/-- At least as much was done, and no evaluation is gone. -/
structure Grows (s s' : Scene) : Prop where
  steps : s.steps ≤ s'.steps
  deepest : s.deepest ≤ s'.deepest
  calls : ∀ definition count, s.calls.lookup definition = some count →
    ∃ count', s'.calls.lookup definition = some count' ∧ count ≤ count'
  begun : ∀ id, (s.evaluations.find? id).isSome = true → (s'.evaluations.find? id).isSome = true

theorem Grows.refl (s : Scene) : Grows s s :=
  ⟨Nat.le_refl _, Nat.le_refl _, fun _ count h => ⟨count, h, Nat.le_refl _⟩, fun _ h => h⟩

theorem Grows.trans {s'' : Scene} (h : Grows s s') (h' : Grows s' s'') : Grows s s'' := by
  refine ⟨Nat.le_trans h.steps h'.steps, Nat.le_trans h.deepest h'.deepest, fun d count hc => ?_,
    fun id hid => h'.begun id (h.begun id hid)⟩
  obtain ⟨count1, h1, hle1⟩ := h.calls d count hc
  obtain ⟨count2, h2, hle2⟩ := h'.calls d count1 h1
  exact ⟨count2, h2, Nat.le_trans hle1 hle2⟩

theorem Grows.exceeds {config : Config} (h : Grows s s') (he : s.Exceeds config) :
    s'.Exceeds config := by
  rcases he with he | he | ⟨d, count, hc, he⟩
  · exact .inl (Nat.lt_of_lt_of_le he h.steps)
  · exact .inr (.inl (Nat.lt_of_lt_of_le he h.deepest))
  · obtain ⟨count', hc', hle⟩ := h.calls d count hc
    exact .inr (.inr ⟨d, count', hc', Nat.lt_of_lt_of_le he hle⟩)

theorem grows_spent (s : Scene) : Grows s s.spent :=
  ⟨Nat.le_succ _, Nat.le_refl _, (Grows.refl s).calls, (Grows.refl s).begun⟩

theorem grows_called (s : Scene) (depth : Nat) (definition : NodeId) :
    Grows s (s.called depth definition) := by
  refine ⟨Nat.le_refl _, Nat.le_max_left _ _, fun d count hc => ?_, (Grows.refl s).begun⟩
  by_cases hd : d = definition
  · subst hd
    exact ⟨_, Keyed.lookup_insert_self _ _ _, by rw [hc]; exact Nat.le_succ _⟩
  · exact ⟨count, (Keyed.lookup_insert_of_ne hd _ _).trans hc, Nat.le_refl _⟩

theorem grows_bind (s : Scene) (current : EvaluationId) (name : String) (v : Value) :
    Grows s (s.bind current name v) := by
  refine ⟨Nat.le_refl _, Nat.le_refl _, (Grows.refl s).calls, fun id hid => ?_⟩
  show ((Evaluations.bind s.evaluations current name v).find? id).isSome = true
  rw [Evaluations.find?_bind]
  split
  · rwa [Option.isSome_map]
  · exact hid

theorem grows_reacted (s : Scene) (node : NodeId) (v : Value) : Grows s (s.reacted node v) :=
  ⟨Nat.le_refl _, Nat.le_refl _, (Grows.refl s).calls, (Grows.refl s).begun⟩

theorem grows_withStreams (s : Scene) (streams : Streams) : Grows s { s with streams } :=
  ⟨Nat.le_refl _, Nat.le_refl _, (Grows.refl s).calls, (Grows.refl s).begun⟩

theorem grows_begin (s : Scene) (e : Evaluation) :
    Grows s { s with evaluations := (s.evaluations.begin e).2 } := by
  refine ⟨Nat.le_refl _, Nat.le_refl _, (Grows.refl s).calls, fun id hid => ?_⟩
  show ((s.evaluations.begin e).2.find? id).isSome = true
  rw [Evaluations.find?_begin]
  split
  · rfl
  · exact hid

/-! ## What stays in the tree -/

section
variable {t : Tree} (h : s.InTree t)
include h

theorem InTree.spent : s.spent.InTree t := ⟨h.evaluations, h.definitions, h.streams⟩

theorem InTree.called (depth : Nat) (definition : NodeId) : (s.called depth definition).InTree t :=
  ⟨h.evaluations, h.definitions, h.streams⟩

theorem InTree.bind (current : EvaluationId) (name : String) {v : Value}
    (hv : v.Holds (Handle.InTree t)) : (s.bind current name v).InTree t := by
  refine ⟨h.evaluations.bind current name hv, fun id e he => ?_, h.streams⟩
  have he' : (Evaluations.bind s.evaluations current name v).find? id = some e := he
  rw [Evaluations.find?_bind] at he'
  split at he'
  · obtain ⟨e1, he1, rfl⟩ := Option.map_eq_some_iff.1 he'
    exact h.definitions id e1 he1
  · exact h.definitions id e he'

theorem InTree.reacted (node : NodeId) (v : Value) : (s.reacted node v).InTree t :=
  ⟨h.evaluations, h.definitions, h.streams⟩

theorem InTree.begin {e : Evaluation} (he : e.Holds (Handle.InTree t))
    (hd : t.Reaches e.definition) :
    Scene.InTree t { s with evaluations := (s.evaluations.begin e).2 } := by
  refine ⟨h.evaluations.begin he, fun id e1 he1 => ?_, h.streams⟩
  have he2 : (s.evaluations.begin e).2.find? id = some e1 := he1
  rw [Evaluations.find?_begin] at he2
  split at he2
  · cases he2
    exact hd
  · exact h.definitions id e1 he2

theorem InTree.createOrReuse (kind : StreamKind) (creator : NodeId) (inputs : List Value)
    (pass : Nat) (config : Config) : Scene.InTree t
      { s with streams := (s.streams.createOrReuse kind creator inputs pass config).2 } :=
  ⟨h.evaluations, h.definitions, h.streams.createOrReuse kind creator inputs pass config⟩

end

variable (r) in
/-- Every scene is that of some machine. -/
theorem exists_at (s : Scene) (frames : List Frame) : ∃ c, s.At r frames c :=
  ⟨({ frames
      evaluations := s.evaluations
      status := .running
      result := none
      index := s.steps
      callCounts := s.calls
      reactions := s.reactions
      memo := [] }, s.streams), rfl, rfl, rfl, rfl, rfl, rfl, nofun⟩

section
variable {f : Frame} {rest : List Frame} {m : Machine} {streams : Streams}

theorem At.withFrame (h : s.At r (f :: rest) (m, streams)) (change : Frame → Frame) :
    s.At r (change f :: rest) (m.withFrame change, streams) := by
  unfold Machine.withFrame
  rw [h.frames]
  exact ⟨rfl, h.evaluations, h.reactions, h.calls, h.index, h.streams, h.memo⟩

theorem At.push (h : s.At r (f :: rest) (m, streams)) (v : Value) :
    s.At r (f.passed 0 [v] :: rest) (m.push v, streams) :=
  h.withFrame fun f => f.push v

theorem At.skip (h : s.At r (f :: rest) (m, streams)) (count : Nat) :
    s.At r (f.passed count [] :: rest) (m.skip count, streams) :=
  h.withFrame fun f => f.skip count

theorem At.advanced (h : s.At r (f :: rest) (m, streams)) :
    s.spent.At r (f.passed 1 [] :: rest) (m.advanced, streams) := by
  let counted : Machine := { m with index := m.index + 1, status := .running }
  have hc : s.spent.At r (f :: rest) (counted, streams) :=
    ⟨h.frames, h.evaluations, h.reactions, h.calls, congrArg (· + 1) h.index, h.streams,
      h.memo⟩
  exact hc.skip 1

theorem At.withMemo {frames : List Frame} (h : s.At r frames (m, streams))
    {memo : List (NodeId × Value)} (hm : ∀ e ∈ memo, r.allows streams.size e.1 e.2) :
    s.At r frames ({ m with memo }, streams) :=
  ⟨h.frames, h.evaluations, h.reactions, h.calls, h.index, h.streams, hm⟩

/-- One more value is remembered. -/
theorem At.memo_insert {frames : List Frame} (h : s.At r frames (m, streams)) {node : NodeId}
    {v : Value} (hv : r.allows streams.size node v) :
    ∀ e ∈ Keyed.insert node v m.memo, r.allows streams.size e.1 e.2 := by
  intro e he
  rcases Keyed.mem_insert he with rfl | he
  · exact hv
  · exact h.memo e he

theorem At.current (h : s.At r (f :: rest) (m, streams)) : m.current = f.evaluation :=
  Machine.current_eq h.frames

theorem At.bind (h : s.At r (f :: rest) (m, streams)) (name : String) (v : Value) :
    (s.bind f.evaluation name v).At r (f :: rest) (m.bind name v, streams) := by
  refine ⟨h.frames, ?_, h.reactions, h.calls, h.index, h.streams, h.memo⟩
  rw [Machine.bind, h.current]
  exact congrArg (fun es => Evaluations.bind es f.evaluation name v) h.evaluations

theorem At.reacted {frames : List Frame} (h : s.At r frames (m, streams)) (node : NodeId)
    (v : Value) : (s.reacted node v).At r frames
      ({ m with reactions := Keyed.insert node v m.reactions }, streams) :=
  ⟨h.frames, h.evaluations, congrArg (Keyed.insert node v) h.reactions, h.calls, h.index, h.streams,
    h.memo⟩

theorem At.withStreams {frames : List Frame} (h : s.At r frames (m, streams)) {streams' : Streams}
    (hsize : streams.size ≤ streams'.size) :
    Scene.At { s with streams := streams' } r frames (m, streams') :=
  ⟨h.frames, h.evaluations, h.reactions, h.calls, h.index, rfl,
    fun e he => r.more hsize (h.memo e he)⟩

/-- The newest values are taken, oldest first. -/
theorem At.pop {n : Nat} {values : List Value}
    (h : s.At r (f.passed n values.reverse :: rest) (m, streams)) :
    (m.pop values.length).1 = values ∧
      s.At r (f.passed n [] :: rest) ((m.pop values.length).2, streams) := by
  unfold Machine.pop
  rw [h.frames]
  refine ⟨by simp [Frame.pop], ?_, h.evaluations, h.reactions, h.calls, h.index, h.streams, h.memo⟩
  simp [Frame.pop, Frame.passed]

section
variable {n : Nat} {v : Value} {node : NodeId} (h : s.At r (f.passed n [v] :: rest) (m, streams))
include h

/-- The value that a node has just given is remembered. -/
theorem At.remember (hv : r.allows streams.size node v) (w : World) :
    s.At r (f.passed n [v] :: rest) (m.remember w node, streams) := by
  unfold Machine.remember
  have hcurrent : m.currentValue? = some v := by
    have hf : m.frames = f.passed n [v] :: rest := h.frames
    rw [Machine.currentValue?, hf]
    rfl
  rw [hcurrent]
  dsimp only
  split
  · exact h.withMemo (h.memo_insert hv)
  · exact h

/-- The value of a call is remembered of the node that has made it. -/
theorem At.rememberCall {caller : Frame}
    (hv : ∀ position node, caller.position = position + 1 →
      caller.steps[position]? = some (.finish node) → r.allows streams.size node v) (w : World) :
    s.At r (f.passed n [v] :: rest) (m.rememberCall w caller, streams) := by
  unfold Machine.rememberCall
  split
  · exact h
  · rename_i position hposition
    split
    · rename_i node hnode
      exact h.remember (hv position node hposition hnode) w
    · exact h

end

end
end Scene

/-! ## Runs of the machine -/

namespace Pass

variable {r : Recall} {p : Program} {pass : Pass} {c c' : Machine × Streams}

/-- The machine and the streams after so many steps, or as many as there are. -/
def run (p : Program) (pass : Pass) : Nat → Machine × Streams → Machine × Streams
  | 0, c => c
  | n + 1, c =>
    match c.1.step ⟨p, pass, c.2, false⟩ with
    | some (_, m, streams) => run p pass n (m, streams)
    | none => c

/-- The run comes to a state. -/
def Leads (p : Program) (pass : Pass) (c c' : Machine × Streams) : Prop :=
  ∃ n, run p pass n c = c'

theorem run_add (n k : Nat) (c : Machine × Streams) :
    run p pass (n + k) c = run p pass k (run p pass n c) := by
  induction n generalizing c with
  | zero => rw [Nat.zero_add, run]
  | succ n ih =>
    rw [Nat.add_right_comm]
    simp only [run]
    split
    · exact ih _
    · rename_i hs
      cases k with
      | zero => rfl
      | succ k => rw [run, hs]

theorem Leads.refl : Leads p pass c c := ⟨0, rfl⟩

theorem Leads.trans {c'' : Machine × Streams} (h : Leads p pass c c') (h' : Leads p pass c' c'') :
    Leads p pass c c'' := by
  obtain ⟨n, rfl⟩ := h
  obtain ⟨k, rfl⟩ := h'
  exact ⟨n + k, run_add n k c⟩

theorem Leads.step {s : Step} {m : Machine} {streams : Streams}
    (h : c.1.step ⟨p, pass, c.2, false⟩ = some (s, m, streams)) : Leads p pass c (m, streams) :=
  ⟨1, by simp only [run, h]⟩

/-- The pass has ended with a result, over a scene. -/
structure Ended (status : Status) (result : Value) (s : Scene) (c : Machine × Streams) : Prop where
  frames : c.1.frames = []
  status : c.1.status = status
  result : c.1.result = some result
  reactions : c.1.reactions = s.reactions
  streams : c.2 = s.streams

/-- The run ends so, and remembers what `r` allows. -/
def Ends (r : Recall) (p : Program) (pass : Pass) (status : Status) (result : Value) (s : Scene)
    (c : Machine × Streams) : Prop :=
  ∃ n, Ended status result s (run p pass n c) ∧
    ∀ e ∈ (run p pass n c).1.memo, r.allows (run p pass n c).2.size e.1 e.2

/-- The run ends since it was stopped by a limit. -/
def HitsLimit (r : Recall) (p : Program) (pass : Pass) (c : Machine × Streams) : Prop :=
  ∃ (f : Failure) (s : Scene), f.kind.isLimit = true ∧ Ends r p pass .exception f.toValue s c

theorem Leads.ends {status : Status} {result : Value} {s : Scene} (h : Leads p pass c c')
    (he : Ends r p pass status result s c') : Ends r p pass status result s c := by
  obtain ⟨n, rfl⟩ := h
  obtain ⟨k, hk⟩ := he
  exact ⟨n + k, by rwa [run_add]⟩

theorem Leads.hitsLimit (h : Leads p pass c c') (hl : HitsLimit r p pass c') :
    HitsLimit r p pass c := by
  obtain ⟨f, s, hk, he⟩ := hl
  exact ⟨f, s, hk, h.ends he⟩

theorem ends_fail {s : Scene} {frames : List Frame} {m : Machine}
    (h : s.At r frames (m, s.streams)) (f : Failure) :
    Ends r p pass .exception f.toValue s (m.fail f, s.streams) :=
  ⟨0, ⟨rfl, rfl, rfl, h.reactions, rfl⟩, h.memo⟩

/-- The frames that are done are left. -/
def settled (p : Program) (pass : Pass) (c : Machine × Streams) : Machine × Streams :=
  (c.1.settle ⟨p, pass, c.2, false⟩, c.2)

end Pass

/-! ## Frames that are done -/

namespace Pass

variable {r : Recall} {p : Program} {pass : Pass} {c : Machine × Streams} {s : Scene} {f g : Frame}
  {rest : List Frame}

/-- What a frame that is done gives. -/
def valueOf (p : Program) (pass : Pass) (s : Scene) (f : Frame) : Value :=
  if f.kind = .structureDef then .instanceOf (s.evaluations.instanceAt p.tree f.evaluation)
  else (s.world p pass).seen (f.values.headD .nothing)

variable (p pass) in
theorem frameResult_eq {frames : List Frame} (h : s.At r frames c) (f : Frame) :
    c.1.frameResult ⟨p, pass, c.2, false⟩ f = valueOf p pass s f := by
  unfold Machine.frameResult valueOf Scene.world
  rw [h.evaluations, h.streams]
  rfl

/-- There is nothing to leave while the frame that runs has a next step. -/
theorem settled_of_next? (h : s.At r (f :: rest) c) {st : Step} (hn : f.next? = some st) :
    settled p pass c = c := by
  have hd := Frame.isDone_of_next? hn
  have hs : c.1.settle ⟨p, pass, c.2, false⟩ = c.1 := by
    have hf := h.frames
    obtain ⟨m, streams⟩ := c
    unfold Machine.settle
    dsimp only at hf ⊢
    rw [hf]
    cases rest with
    | nil => simp [Machine.leave, hd, ← hf]
    | cons caller rest => simp [Machine.leave, hd, ← hf]
  rw [settled, hs]

/-- A frame that is done hands its value to its caller. -/
theorem settled_leave (h : s.At r (g :: f :: rest) c) (hd : g.isDone = true)
    (hv : rest = [] → ∀ position node, f.position = position + 1 →
      f.steps[position]? = some (.finish node) →
        r.allows s.streams.size node (valueOf p pass s g)) :
    ∃ c', s.At r (f.passed 0 [valueOf p pass s g] :: rest) c' ∧
      settled p pass c = settled p pass c' := by
  have hvalue := frameResult_eq p pass h g
  obtain ⟨m, streams⟩ := c
  obtain rfl : streams = s.streams := h.streams
  let m1 : Machine := { m with frames := f.passed 0 [valueOf p pass s g] :: rest }
  let m2 : Machine := if rest.isEmpty then
      m1.rememberCall ⟨p, pass, s.streams, false⟩ (f.passed 0 [valueOf p pass s g])
    else m1
  have h1 : s.At r (f.passed 0 [valueOf p pass s g] :: rest) (m1, s.streams) :=
    ⟨rfl, h.evaluations, h.reactions, h.calls, h.index, rfl, h.memo⟩
  have h2 : s.At r (f.passed 0 [valueOf p pass s g] :: rest) (m2, s.streams) := by
    show s.At r _ (if rest.isEmpty then _ else m1, s.streams)
    split
    · exact h1.rememberCall (hv (List.isEmpty_iff.1 ‹_›)) _
    · exact h1
  refine ⟨(m2, s.streams), h2, ?_⟩
  have hl : m.settle ⟨p, pass, s.streams, false⟩ = m2.settle ⟨p, pass, s.streams, false⟩ := by
    have hf : m.frames = g :: f :: rest := h.frames
    have hf2 : m2.frames = f.passed 0 [valueOf p pass s g] :: rest := h2.frames
    dsimp only at hvalue
    simp only [Machine.settle, hf, hf2, Machine.leave, hd, if_true, hvalue]
    rfl
  rw [settled, settled, hl]

/-- With the program's own frame the pass is completed. -/
theorem settled_end (h : s.At r [f] c) (hd : f.isDone = true) :
    Ends r p pass .completed (valueOf p pass s f) s (settled p pass c) := by
  have hv := frameResult_eq p pass h f
  have hf := h.frames
  have hr := h.reactions
  obtain ⟨m, streams⟩ := c
  dsimp only at hf hv hr
  have hl : m.settle ⟨p, pass, streams, false⟩ =
      { m with frames := [], status := .completed, result := some (valueOf p pass s f) } := by
    simp only [Machine.settle, hf, Machine.leave, hd, if_true, hv]
  rw [settled, hl]
  exact ⟨0, ⟨rfl, rfl, rfl, hr, h.streams⟩, h.memo⟩

end Pass
end ReactiveLang
