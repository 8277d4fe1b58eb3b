import ReactiveLang.Proofs.Eval.Reaching
import ReactiveLang.Proofs.Eval.Remembered
import ReactiveLang.Proofs.Eval.Trails

/-!
# Runs along trails

`Machine.Tests` says of which value the next step makes a type test, and `Machine.Reuses` which value
of the pass before it takes in place of a node's code. If what is known of tests heeds both in every
evaluation, then every frame stays on a trail of its code (`Traced.step`), so tests tell of every
condition around the node of the next step (`Traced.tells`).
-/

namespace ReactiveLang

open Machine

/-! ## What tests tell of an outcome -/

theorem Value.booleanOf_eq_ok {v : Value} {b : Bool} (h : v.booleanOf = .ok b) : v = .boolean b := by
  cases v <;> cases h
  rfl

/-- The left operand decides, or the right one does. -/
theorem BinaryOperator.logical_cases {operator : BinaryOperator} {left right v : Value}
    (h : operator.logical left right = .ok v) : ∃ l, left = .boolean l ∧
      (l = decide (operator ≠ .and) ∧ v = .boolean l ∨
        l = decide (operator = .and) ∧ ∃ r, right = .boolean r ∧ v = .boolean r) := by
  unfold BinaryOperator.logical at h
  obtain ⟨l, hl, h⟩ := bind_eq_ok h
  refine ⟨l, Value.booleanOf_eq_ok hl, ?_⟩
  have hright : ∀ {v}, (do let r ← right.booleanOf; pure (Value.boolean r)) = Except.ok v →
      ∃ r, right = .boolean r ∧ v = .boolean r := by
    intro v hv
    obtain ⟨r, hr, hv⟩ := bind_eq_ok hv
    cases hv
    exact ⟨r, Value.booleanOf_eq_ok hr, rfl⟩
  cases operator <;> cases l <;> first
    | exact .inr ⟨rfl, hright h⟩
    | (cases h; exact .inl ⟨rfl, rfl⟩)

namespace Tree

variable {t : Tree} {made : NodeId → Value → Prop} {node : NodeId} {v : Value}

/-- A condition that is seen to be a boolean has come out as tests tell. -/
theorem Answers.tells (h : t.Answers made node v) {w : World} {b : Bool}
    (hs : w.seen v = .boolean b) : t.Tells made node b := by
  cases hl : t.isLogical node with
  | false => exact .other hl b
  | true =>
    obtain ⟨c, rfl, htells⟩ := h hl
    obtain rfl : c = b := Value.boolean.inj hs
    exact htells

theorem Answers.exists_tells (h : t.Answers made node v) : ∃ b, t.Tells made node b := by
  cases hl : t.isLogical node with
  | false => exact ⟨true, .other hl true⟩
  | true =>
    obtain ⟨b, -, htells⟩ := h hl
    exact ⟨b, htells⟩

/-- A connection of two conditions has come out as tests tell. The right one is tested even if the
left one decides. -/
theorem Answers.connect {w : World} {left right : NodeId} {operator : BinaryOperator} {a b c : Value}
    (ha : t.Answers made left a) (hc : t.construct node = .binary left operator right)
    (hlogical : operator = .and ∨ operator = .or) (hb : t.Answers made right b)
    (hv : operator.logical (w.seen a) (w.seen b) = .ok c) :
    ∃ outcome, c = .boolean outcome ∧ t.Tells made node outcome := by
  obtain ⟨l, hleft, hcase⟩ := BinaryOperator.logical_cases hv
  obtain ⟨other, hother⟩ := hb.exists_tells
  obtain rfl | rfl := hlogical
  · obtain ⟨rfl, rfl⟩ | ⟨rfl, r, hright, rfl⟩ := hcase
    · exact ⟨_, rfl, .and hc (ha.tells hleft) hother⟩
    · exact ⟨_, rfl, .and hc (ha.tells hleft) (hb.tells hright)⟩
  · obtain ⟨rfl, rfl⟩ | ⟨rfl, r, hright, rfl⟩ := hcase
    · exact ⟨_, rfl, .or hc (ha.tells hleft) hother⟩
    · exact ⟨_, rfl, .or hc (ha.tells hleft) (hb.tells hright)⟩

/-- A finish that does not follow from tests may leave any value. -/
theorem Moves.acts {skip : Nat} {operands left : List Value} (hl : t.isLogical node = false)
    (h : t.Moves (.finish node) skip operands.length left.length) :
    t.Acts made (.finish node) skip operands left := by
  generalize htakes : operands.length = takes at h
  generalize hleaves : left.length = leaves at h
  cases h with
  | keep hc =>
    obtain rfl := List.eq_nil_of_length_eq_zero htakes
    obtain rfl := List.eq_nil_of_length_eq_zero hleaves
    exact .keep hc
  | finish hprogram hconditional =>
    obtain ⟨v, rfl⟩ := List.length_eq_one_iff.1 hleaves
    refine .finish hprogram hconditional htakes fun hl' => ?_
    rw [hl] at hl'
    cases hl'

end Tree

/-- A node whose outcome follows from tests has the value that they tell. -/
theorem World.outcome_logical {w : World} {es : Evaluations} {current : EvaluationId} {node : NodeId}
    {operands : List Value} {made : NodeId → Value → Prop} {o : Outcome}
    (hl : w.tree.isLogical node = true) (ho : w.outcome es current node operands = .ok o)
    (htest : ∀ expression annotation, w.tree.construct node = .typeTest expression annotation →
      made node (w.seen (operand operands 0)))
    (hoperands : List.Forall₂ (w.tree.Answers made) (w.tree.children node) operands) :
    ∃ b, o = .value (.boolean b) ∧ w.tree.Tells made node b := by
  unfold World.outcome at ho
  unfold Tree.isLogical at hl
  dsimp only at ho
  split at hl
  · rename_i expression annotation hc
    rw [hc] at ho
    cases ho
    exact ⟨_, rfl, .test hc (htest _ _ hc)⟩
  · rename_i child hc
    rw [hc] at ho
    obtain ⟨v, hv, rfl⟩ := map_eq_ok ho
    rw [Tree.children, hc] at hoperands
    obtain _ | ⟨hanswers, _⟩ := hoperands
    obtain ⟨b, hb, hv⟩ := bind_eq_ok hv
    cases hv
    exact ⟨_, rfl, .not hc (hanswers.tells (Value.booleanOf_eq_ok hb))⟩
  · rename_i left right hc
    rw [hc] at ho
    obtain ⟨v, hv, rfl⟩ := map_eq_ok ho
    rw [Tree.children, hc] at hoperands
    obtain _ | ⟨hl, _ | ⟨hr, _⟩⟩ := hoperands
    obtain ⟨b, rfl, htells⟩ := hl.connect hc (.inl rfl) hr hv
    exact ⟨b, rfl, htells⟩
  · rename_i left right hc
    rw [hc] at ho
    obtain ⟨v, hv, rfl⟩ := map_eq_ok ho
    rw [Tree.children, hc] at hoperands
    obtain _ | ⟨hl, _ | ⟨hr, _⟩⟩ := hoperands
    obtain ⟨b, rfl, htells⟩ := hl.connect hc (.inr rfl) hr hv
    exact ⟨b, rfl, htells⟩
  · cases hl

/-! ## Frames -/

namespace Frame

/-- The frame is on a trail in the code of nodes that no condition guards. -/
def Traced (t : Tree) (made : NodeId → Value → Prop) (f : Frame) : Prop :=
  ∃ nodes : List NodeId, (∀ node ∈ nodes, t.Reaches node) ∧
    (∀ node ∈ nodes, ∀ condition truth, ¬ t.Guarded condition truth node) ∧
    f.steps.toList = nodes.flatMap t.code ∧ t.TrailIn made nodes f.position f.values

/-- The frame waits for the value of a call. -/
structure Waits (t : Tree) (made : NodeId → Value → Prop) (f : Frame) : Prop where
  push : ∀ v, (f.push v).Traced t made
  /-- A call does not follow from tests. -/
  call : ∀ n node, f.position = n + 1 → f.steps[n]? = some (.finish node) →
    t.isLogical node = false

variable {t : Tree} {made : NodeId → Value → Prop} {f : Frame} {s : Step}

theorem traced_begin (nodes : List NodeId) (hr : ∀ node ∈ nodes, t.Reaches node)
    (hfree : ∀ node ∈ nodes, ∀ condition truth, ¬ t.Guarded condition truth node)
    (hs : f.steps.toList = nodes.flatMap t.code) (hp : f.position = 0) : f.Traced t made :=
  ⟨nodes, hr, hfree, hs, hp ▸ t.trailIn_begin made nodes (Nat.zero_le _) f.values⟩

theorem Traced.follow (w : t.WellFormed) (hn : ∀ node, t.Reaches node → (t.children node).Nodup)
    (h : f.Traced t made) (hs : f.next? = some s) :
    t.Follow made f.steps.toList (fun _ _ => False)
      (fun i values => Traced t made { f with position := i, values }) f.position f.values s := by
  obtain ⟨nodes, hr, hfree, hsteps, htrail⟩ := h
  have hthere : f.steps.toList[f.position]? = some s := by
    rw [Array.getElem?_toList]
    exact hs
  obtain hend | ⟨step, hstep⟩ := htrail.leads w hn hr hfree
  · rw [hsteps, hend, List.getElem?_eq_none (Nat.le_refl _)] at hthere
    cases hthere
  · rw [← hsteps] at hstep
    obtain rfl : step = s := Option.some.inj (hstep.there.symm.trans hthere)
    exact ⟨hthere, hstep.reaches, hstep.tells, hstep.takes, hstep.operands,
      fun ha hv => ⟨nodes, hr, hfree, hsteps, hstep.acts ha hv⟩⟩

end Frame

namespace Machine

/-- The frames of a machine, each on a trail with the tests of its evaluation; the lowest one runs
the program. -/
inductive Stacked (t : Tree) (made : EvaluationId → NodeId → Value → Prop) : List Frame → Prop where
  | none : Stacked t made []
  | frames {f : Frame} {below : List Frame} (top : f.Traced t (made f.evaluation))
      (waiting : ∀ g ∈ below, g.Waits t (made g.evaluation))
      (lowest : ∀ g, (f :: below).getLast? = some g → g.evaluation = .root) :
      Stacked t made (f :: below)

variable (w : World) (m : Machine)

/-- The next step makes the type test, of this value. -/
def Tests (test : NodeId) (v : Value) : Prop :=
  m.next? = some (.finish test) ∧ ∃ operand, m.currentValue? = some operand ∧ w.seen operand = v

/-- The next step starts the node, and takes this value of the pass before in place of its code. -/
def Reuses (node : NodeId) (v : Value) : Prop :=
  m.next? = some (.start node) ∧ m.inProgram = true ∧ memoized? w node = some v

/-- What is known of tests covers the next step: the test that it makes, and the tests that its
value has come from. -/
structure Heeds (made : EvaluationId → NodeId → Value → Prop) : Prop where
  tests : ∀ test v, m.Tests w test v → made m.current test v
  reuses : ∀ node v, m.Reuses w node v → w.tree.Answers (made m.current) node v

/-- Control has come to where it is along trails, and what is remembered is as tests tell. -/
structure Traced (t : Tree) (made : EvaluationId → NodeId → Value → Prop) : Prop where
  frames : Stacked t made m.frames
  memo : ∀ node v, m.memo.lookup node = some v → t.Answers (made .root) node v

variable {w m} {m' : Machine} {s : Step} {streams : Streams} {f : Frame} {below : List Frame}
  {es : Evaluations} {made : EvaluationId → NodeId → Value → Prop}

/-! ## One step -/

section
variable {code : List Step} {guarded : NodeId → Bool → Prop} {places : Nat → List Value → Prop}
  {i : Nat} (h : m.Has (f :: below) es) (hk : m.Heeds w made)
include h hk

/-- A node whose outcome follows from tests leaves the value that they tell, for the operands. -/
theorem Has.perform_logical {node : NodeId} {o : Outcome} (hn : f.next? = some (.finish node))
    (hf : w.tree.Follow (made f.evaluation) code guarded places i f.values (.finish node))
    (hl : w.tree.isLogical node = true)
    (ho : w.outcome es f.evaluation node (f.pop (w.tree.construct node).operandCount).1 = .ok o)
    (hp : (m.advanced.pop (w.tree.construct node).operandCount).2.perform w node o =
      .ok (m', streams)) :
    ∃ operands rest v, f.values = operands ++ rest ∧
      w.tree.Acts (made f.evaluation) (.finish node) 1 operands [v] ∧
      m'.Has (f.moved 1 operands.length [v] :: below) es := by
  obtain ⟨-, hcount, hprogram, hconditional⟩ := Tree.parts_of_isLogical hl
  obtain ⟨operands, rest, hv, hoperands⟩ := hf.operands rfl hl
  have hsize : operands.length = (w.tree.construct node).operandCount := by
    rw [hcount, ← List.length_reverse]
    exact hoperands.length_eq.symm
  have htaken : (f.pop (w.tree.construct node).operandCount).1 = operands.reverse := by
    simp [Frame.pop, hv, ← hsize]
  -- the value of a test is the newest one
  have htest : ∀ expression annotation, w.tree.construct node = .typeTest expression annotation →
      made f.evaluation node (w.seen (World.operand operands.reverse 0)) := by
    intro expression annotation hc
    obtain ⟨v, rfl⟩ : ∃ v, operands = [v] := List.length_eq_one_iff.1 (by rw [hsize, hc]; rfl)
    have hmade := hk.tests node (w.seen v) ⟨by rw [next?, h.frames]; exact hn, v, ?_, rfl⟩
    · rwa [current_eq h.frames] at hmade
    · rw [currentValue?, h.frames]
      exact congrArg List.head? hv
  rw [htaken] at ho
  obtain ⟨b, rfl, htells⟩ := World.outcome_logical hl ho htest hoperands
  cases hp
  refine ⟨operands, rest, .boolean b, hv,
    .finish hprogram hconditional hsize fun _ => ⟨b, rfl, htells⟩, ?_⟩
  rw [hsize]
  exact (h.advanced.pop _).2.push _

/-- A finish acts on the frame that runs as tests tell, or begins a call, which does not follow from
tests. -/
theorem Has.acts_finish {node : NodeId} (hn : f.next? = some (.finish node))
    (hf : w.tree.Follow (made f.evaluation) code guarded places i f.values (.finish node))
    (he : m.advanced.execute w (.finish node) = .ok (m', streams)) :
    (∃ skip operands left rest es', f.values = operands ++ rest ∧
      w.tree.Acts (made f.evaluation) (.finish node) skip operands left ∧
      m'.Has (f.moved skip operands.length left :: below) es') ∨
      w.tree.isLogical node = false ∧ BeginsCall w (.finish node) f below es m' := by
  obtain ⟨o, m1, ho, hp, hremains⟩ := h.execute_finish he
  cases hl : w.tree.isLogical node with
  | true =>
    obtain ⟨operands, rest, v, hv, hacts, hm⟩ := h.perform_logical hk hn hf hl ho hp
    exact .inl ⟨1, operands, [v], rest, es, hv, hacts, hremains hm⟩
  | false =>
    obtain ⟨skip, takes, values, es', hmoves, hm, -⟩ | ⟨node', call, hs, hmoves, ho, hm⟩ :=
      h.perform ho hp
    · have hsize : (f.values.take takes).length = takes :=
        List.length_take_of_le (hf.takes hmoves)
      have hleft := hremains hm
      rw [← hsize] at hleft
      rw [← hsize] at hmoves
      exact .inl ⟨skip, f.values.take takes, values, f.values.drop takes, es',
        (List.take_append_drop takes f.values).symm, Tree.Moves.acts hl hmoves, hleft⟩
    · exact .inr ⟨rfl, node', call, hs, hmoves, ho, hremains hm⟩

variable (hw : w.tree.WellFormed) (hcode : w.program.code = Code.ofTree w.tree)
include hw hcode

/-- The step acts on the frame that runs as tests tell, or begins a call, which does not follow from
tests. -/
theorem Has.acts (hn : f.next? = some s)
    (hf : w.tree.Follow (made f.evaluation) code guarded places i f.values s)
    (he : m.advanced.execute w s = .ok (m', streams)) :
    (∃ skip operands left rest es', f.values = operands ++ rest ∧
      w.tree.Acts (made f.evaluation) s skip operands left ∧
      m'.Has (f.moved skip operands.length left :: below) es') ∨
      w.tree.isLogical s.node = false ∧ BeginsCall w s f below es m' := by
  have hlen : ∀ node, w.program.code.length node = (w.tree.code node).length := fun node => by
    rw [hcode, Code.length_ofTree]
  cases s with
  | start node =>
    cases he
    obtain ⟨-, hm⟩ | ⟨v, hin, hv, hm⟩ := h.startNode_cases hlen hw.code_length_pos node
    · exact .inl ⟨1, [], [], _, es, rfl, .start node, hm⟩
    · rw [advanced_inProgram] at hin
      have hanswers := hk.reuses node v ⟨by rw [next?, h.frames]; exact hn, hin, hv⟩
      rw [current_eq h.frames] at hanswers
      exact .inl ⟨_, [], [v], _, es, rfl, .reuse hanswers, hm⟩
  | check node =>
    cases he
    obtain ⟨skip, takes, values, es', hmoves, hm, -⟩ := h.checkReaction hlen node
    generalize hleaves : values.length = leaves at hmoves
    cases hmoves with
    | check =>
      obtain rfl := List.eq_nil_of_length_eq_zero hleaves
      exact .inl ⟨1, [], [], _, es', rfl, .check node, hm⟩
    | recheck hc =>
      obtain rfl := List.eq_nil_of_length_eq_zero hleaves
      exact .inl ⟨_, [], [], _, es', rfl, .recheck hc, hm⟩
  | jump node count =>
    cases he
    refine .inl ⟨_, [], [], _, es, rfl, .jump node count, ?_⟩
    simpa [Frame.skip, Frame.moved, Nat.add_assoc] using h.advanced.skip count
  | jumpIf node count when =>
    cases executes he with
    | jumpIf branched =>
      obtain ⟨v, rest, hv⟩ : ∃ v rest, f.values = v :: rest :=
        List.exists_cons_of_length_pos (hf.takes (.stay node count when))
      obtain ⟨b, hseen, hcase⟩ := h.branch_cases branched
      have hoperand : World.operand (f.pop 1).1 0 = v := by simp [Frame.pop, hv, World.operand]
      rw [hoperand] at hseen
      obtain ⟨hne, hm⟩ | ⟨rfl, left, hleft, hm⟩ := hcase
      · refine .inl ⟨1, [v], [], rest, es, hv, .stay fun _ _ _ _ hanswers => ?_, hm⟩
        rw [← Bool.eq_not.2 hne]
        exact hanswers.tells hseen
      · exact .inl ⟨_, [v], left, rest, es, hv, .branch hleft fun _ _ _ _ ha => ha.tells hseen, hm⟩
  | finish node => exact h.acts_finish hk hn hf he

end

/-- The lowest frame stays in its evaluation. -/
theorem lowest_of_evaluation {g : Frame} (hg : g.evaluation = f.evaluation)
    (h : ∀ r, (f :: below).getLast? = some r → r.evaluation = .root) :
    ∀ r, (g :: below).getLast? = some r → r.evaluation = .root := by
  intro r hr
  cases below with
  | nil =>
    obtain rfl : g = r := by simpa using hr
    exact hg.trans (h f rfl)
  | cons caller below =>
    rw [List.getLast?_cons_cons] at hr
    exact h r (by rwa [List.getLast?_cons_cons])

/-- When the frames that are done are left, the others are on their trails. -/
theorem Stacked.settle {t : Tree} (h : Stacked t made m.frames) : Stacked t made (m.settle w).frames := by
  generalize hn : m.frames.length = n
  induction n generalizing m with
  | zero =>
    have hnil : m.frames = [] := List.eq_nil_of_length_eq_zero hn
    have hsame : m.settle w = m := by
      unfold Machine.settle
      rw [hnil]
    rwa [hsame]
  | succ n ih =>
    obtain ⟨f, below, hf⟩ := List.exists_cons_of_length_eq_add_one hn
    cases hd : f.isDone with
    | false =>
      obtain ⟨s, hs⟩ := Frame.exists_next? hd
      rwa [settle_of_next? hf hs]
    | true =>
      cases below with
      | nil =>
        rw [settle_of_last hf hd]
        exact .none
      | cons caller below =>
        obtain ⟨m1, v, hm, hsettle⟩ := settle_of_done (w := w) ⟨hf, rfl⟩ hd
        rw [hf] at h hn
        rw [hsettle]
        refine ih ?_ (by rw [hm.frames]; exact Nat.succ.inj hn)
        rw [hm.frames]
        cases h with
        | frames top waiting lowest =>
          refine .frames ((waiting caller (by simp)).push v) (fun g hg => waiting g (by simp [hg])) ?_
          refine lowest_of_evaluation (f := caller) rfl fun r hr => lowest r ?_
          rwa [List.getLast?_cons_cons]

section
variable (hw : Ready w)
include hw

/-- A call begins in the code of nodes that no condition of their scope guards. -/
theorem traced_call {call : Call} (hcall : w.tree.Reaches call.definition) (id : EvaluationId)
    (made : NodeId → Value → Prop) : (call.frame w.program id).Traced w.tree made := by
  let nodes := w.tree.calledNodes call.definition (call.provided w.tree)
  have hfree : ∀ node ∈ nodes, ∀ condition truth, ¬ w.tree.Guarded condition truth node := by
    intro node hn condition truth
    obtain ⟨hscope, hchild⟩ := Tree.scopeOf?_of_calledNode hn
    exact Tree.not_guarded_of_scope (hw.wellFormed.parent_child _ _ hcall hchild) hscope
  exact Frame.traced_begin nodes (fun node hn => hcall.calledNode hn) hfree
    (call.frame_steps hw.code id) rfl

variable (hnodup : ∀ node, w.tree.Reaches node → (w.tree.children node).Nodup)
include hnodup

/-- After the finish of a node that has made a call, the frame waits for the call's value. -/
theorem waits_of_finish {made : NodeId → Value → Prop} {node : NodeId} (h : f.Traced w.tree made)
    (hn : f.next? = some (.finish node)) (hl : w.tree.isLogical node = false) {takes : Nat}
    (hm : w.tree.Moves (.finish node) 1 takes 1) : (f.moved 1 takes []).Waits w.tree made := by
  have hfollow := h.follow hw.wellFormed hnodup hn
  refine ⟨fun v => ?_, fun n other hposition hstep => ?_⟩
  · have hsize : (f.values.take takes).length = takes := List.length_take_of_le (hfollow.takes hm)
    rw [← hsize] at hm
    have hacts : w.tree.Acts made (.finish node) 1 (f.values.take takes) [v] :=
      Tree.Moves.acts hl hm
    exact hfollow.acts hacts (List.take_append_drop takes f.values).symm
  · obtain rfl : n = f.position := (Nat.succ.inj hposition).symm
    have hsame : Step.finish other = .finish node := Option.some.inj (hstep.symm.trans hn)
    cases hsame
    exact hl

variable (hin : m.InTree w.tree) (hk : m.Heeds w made)
include hin hk

theorem Stacked.execute (h : Stacked w.tree made m.frames) (hnext : m.next? = some s)
    (he : m.advanced.execute w s = .ok (m', streams)) : Stacked w.tree made m'.frames := by
  obtain ⟨f, below, hf, hn⟩ := frames_of_next? hnext
  rw [hf] at h
  cases h with
  | frames top waiting lowest =>
  have hfollow := top.follow hw.wellFormed hnodup hn
  have hm : m.Has (f :: below) m.evaluations := ⟨hf, rfl⟩
  obtain ⟨skip, operands, left, rest, es', hv, hacts, hm'⟩ | ⟨hl, node, call, rfl, hmoves, ho, hm'⟩ :=
    hm.acts hk hw.wellFormed hw.code hn hfollow he
  · rw [hm'.frames]
    refine .frames ?_ waiting (lowest_of_evaluation (f := f) rfl lowest)
    have hplace := hfollow.acts hacts hv
    have hrest : f.values.drop operands.length = rest := by rw [hv, List.drop_left]
    rwa [← hrest] at hplace
  · rw [hm'.frames]
    have hcall := hin.call_reaches hw hfollow.reaches rfl hm ho
    refine .frames (traced_call hw hcall _ _) (fun g hg => ?_) fun r hr => ?_
    · rcases List.mem_cons.1 hg with rfl | hg
      · exact waits_of_finish hw hnodup top hn hl hmoves
      · exact waiting g hg
    · rw [List.getLast?_cons_cons] at hr
      exact lowest_of_evaluation (f := f) (g := f.moved 1 _ []) rfl lowest r hr

/-- What the effect of a step remembers is as tests tell. -/
theorem Traced.execute (h : m.Traced w.tree made) (hnext : m.next? = some s)
    (he : m.advanced.execute w s = .ok (m', streams)) : m'.Traced w.tree made := by
  refine ⟨h.frames.execute hw hnodup hin hk hnext he, fun node v hmemo => ?_⟩
  have hkept : m.advanced.memo.lookup node = some v → w.tree.Answers (made .root) node v := by
    rw [advanced_memo]
    exact h.memo node v
  obtain ⟨f, below, hf, hn⟩ := frames_of_next? hnext
  have hframes := h.frames
  rw [hf] at hframes
  cases hframes with
  | frames top waiting lowest =>
  have halone : m.inProgram = true → below = [] ∧ made f.evaluation = made .root := by
    intro halone
    have hone : (f :: below).length = 1 := by simpa [inProgram, hf] using halone
    obtain rfl : below = [] := List.eq_nil_of_length_eq_zero (Nat.succ.inj hone)
    exact ⟨rfl, congrArg made (lowest f rfl)⟩
  by_cases hstart : s = .start node
  · subst hstart
    cases he
    obtain hold | ⟨halone', hv⟩ := startNode_lookup_cases hmemo
    · exact hkept hold
    · rw [advanced_inProgram] at halone'
      have hanswers := hk.reuses node v ⟨hnext, halone', hv⟩
      rw [current_eq hf] at hanswers
      exact (halone halone').2 ▸ hanswers
  by_cases hfinish : s = .finish node
  · subst hfinish
    obtain hold | ⟨halone', hv⟩ := execute_finish_lookup_cases he hmemo
    · exact hkept hold
    intro hl
    have hm : m.Has (f :: below) m.evaluations := ⟨hf, rfl⟩
    obtain ⟨skip, operands, left, rest, es', -, hacts, hm'⟩ | ⟨hl', -⟩ :=
      hm.acts hk hw.wellFormed hw.code hn (top.follow hw.wellFormed hnodup hn) he
    · have hprogram : m.inProgram = true := by
        simpa [inProgram, hm'.frames, hf] using halone'
      rw [currentValue?, hm'.frames] at hv
      obtain ⟨-, -, hblock, hconditional⟩ := Tree.parts_of_isLogical hl
      cases hacts with
      | keep hc =>
        obtain ⟨block, hb⟩ | ⟨condition, yes, no, hb⟩ := hc
        · exact absurd hb (hblock block)
        · exact absurd hb (hconditional condition yes no)
      | finish _ _ _ hanswers =>
        cases hv
        exact (halone hprogram).2 ▸ hanswers hl
    · cases hl.symm.trans hl'
  · rw [execute_lookup_of_ne hstart hfinish he] at hmemo
    exact hkept hmemo

end

theorem Traced.settle {t : Tree} (h : m.Traced t made) : (m.settle w).Traced t made := by
  refine ⟨h.frames.settle, fun node v hmemo hl => ?_⟩
  rcases List.eq_nil_or_concat' m.frames with hnil | ⟨calls, g, hframes⟩
  · have hsame : m.settle w = m := by
      unfold Machine.settle
      rw [hnil]
    exact h.memo node v (hsame ▸ hmemo) hl
  · -- the program's frame may get the value of a call, which does not follow from tests
    have hcall : calls ≠ [] → ∀ n, g.position = n + 1 → g.steps[n]? ≠ some (.finish node) := by
      intro hne n hposition hstep
      obtain ⟨f, rest, rfl⟩ := List.exists_cons_of_ne_nil hne
      have hstack := h.frames
      rw [hframes] at hstack
      cases hstack with
      | frames top waiting lowest =>
        rw [(waiting g (by simp)).call n node hposition hstep] at hl
        cases hl
    rw [settle_lookup_of_ne hframes hcall] at hmemo
    exact h.memo node v hmemo hl

/-- A step goes on along trails, if what is known of tests heeds it. -/
theorem Traced.step (hw : Ready w)
    (hnodup : ∀ node, w.tree.Reaches node → (w.tree.children node).Nodup) (hin : m.InTree w.tree)
    (hk : m.Heeds w made) (h : m.Traced w.tree made) (hs : m.step w = some (s, m', streams)) :
    m'.Traced w.tree made := by
  obtain ⟨hnext, ⟨failure, -, rfl, -⟩ | ⟨m1, he, rfl⟩⟩ := step_cases hs
  · refine ⟨.none, fun node v hmemo => h.memo node v ?_⟩
    rwa [← m.advanced_memo]
  · exact (h.execute hw hnodup hin hk hnext he).settle

theorem Tests.unique {test : NodeId} {u v : Value} (h : m.Tests w test u) (h' : m.Tests w test v) :
    u = v := by
  obtain ⟨-, operand, ho, rfl⟩ := h
  obtain ⟨-, operand', ho', rfl⟩ := h'
  rw [Option.some.inj (ho.symm.trans ho')]

/-- The program's own steps run in its own evaluation. -/
theorem Stacked.current_of_inProgram {t : Tree} (h : Stacked t made m.frames)
    (halone : m.inProgram = true) : m.current = .root := by
  obtain ⟨f, hf⟩ : ∃ f, m.frames = [f] := List.length_eq_one_iff.1 (by simpa [inProgram] using halone)
  rw [current_eq hf]
  rw [hf] at h
  cases h with
  | frames top waiting lowest => exact lowest f rfl

/-- Tests tell of every condition that the node of the next step is guarded by. -/
theorem Traced.tells {t : Tree} (hw : t.WellFormed)
    (hnodup : ∀ node, t.Reaches node → (t.children node).Nodup) (h : m.Traced t made)
    (hn : m.next? = some s) {condition : NodeId} {truth : Bool}
    (hg : t.Guarded condition truth s.node) : t.Tells (made m.current) condition truth := by
  obtain ⟨f, below, hf, hfn⟩ := frames_of_next? hn
  have hframes := h.frames
  rw [hf] at hframes
  rw [current_eq hf]
  cases hframes with
  | frames top waiting lowest =>
    exact ((top.follow hw hnodup hfn).tells condition truth hg).resolve_right id

/-- A pass begins on a trail. -/
theorem traced_start {p : Program} (hw : p.tree.WellFormed) (hcode : p.code = Code.ofTree p.tree)
    (made : EvaluationId → NodeId → Value → Prop) : (start p).Traced p.tree made := by
  refine ⟨.frames (Frame.traced_begin [p.tree.root] ?_ ?_ ?_ rfl) nofun ?_, nofun⟩
  · intro node hn
    rw [List.mem_singleton.1 hn]
    exact ⟨0, .root⟩
  · intro node hn condition truth
    rw [List.mem_singleton.1 hn]
    exact hw.not_guarded_root
  · rw [hcode, Code.ofNode_ofTree]
    simp
  · intro g hg
    cases hg
    rfl

end Machine
end ReactiveLang
