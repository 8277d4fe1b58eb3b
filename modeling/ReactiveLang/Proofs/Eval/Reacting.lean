import ReactiveLang.Proofs.Eval.Evaluating
import ReactiveLang.Proofs.Eval.Yielding

/-!
# How a reaction runs

A reaction that has no value from the pass before yields its initial value. Otherwise it gives that
value to the name of the bind around it and evaluates its condition; then it yields its next value
or the one that it had (`Reacts`). `Retraces.reacts`: so it is wherever a run starts a reaction, as
far as the run goes.
-/

namespace ReactiveLang

/-! ## The code of a reaction -/

/-- A reaction is evaluated anew in every pass. -/
theorem Analysis.isMemoizable_reaction {a : Analysis} {node initial condition next : NodeId}
    (hc : a.tree.construct node = .reaction initial condition next) :
    a.isMemoizable node = false := by
  have hsize : a.tree.nodes.size ≠ 0 := by
    intro hzero
    have hnone : a.tree.nodes[node.index]? = none := Array.getElem?_eq_none (by omega)
    rw [Tree.construct, hnone] at hc
    cases hc
  obtain ⟨n, hn⟩ := Nat.exists_eq_succ_of_ne_zero hsize
  have hself : node ∈ a.tree.descendants node := by
    rw [Tree.descendants, hn, Tree.descendantsTo]
    exact List.mem_cons_self
  have hbound : (a.tree.descendants node).any a.isPassBound = true :=
    List.any_eq_true.2 ⟨node, hself, by rw [Analysis.isPassBound, hc]⟩
  unfold Analysis.isMemoizable
  simp [hbound]

/-- What is seen is no stream, so it is seen as it is. -/
theorem World.seen_seen {w : World} (hr : w.streams.Regular) (w' : World) (v : Value) :
    w'.seen (w.seen v) = w.seen v := by
  have hseen : ∀ id, (w.seen (.stream id)).handles = [] := by
    intro id
    show (((w.streams.find? id).bind fun s => s.latestAt? w.pass.number).getD .nothing).handles = []
    cases hf : w.streams.find? id with
    | none => rfl
    | some s =>
      cases hl : s.latestAt? w.pass.number with
      | none => rw [Option.bind_some, hl]; rfl
      | some u =>
        obtain ⟨x, hx, rfl⟩ := Option.map_eq_some_iff.1 hl
        have hm : x ∈ s.values := by simpa using List.mem_of_find?_eq_some hx
        rw [Option.bind_some, hl]
        exact (hr.places _ s hf).2 x hm
  cases v with
  | stream id =>
    have hnone := hseen id
    generalize w.seen (.stream id) = u at hnone
    cases u with
    | stream id => simp [Value.handles] at hnone
    | _ => rfl
  | _ => rfl

namespace Tree

variable {t : Tree} {node initial condition next : NodeId}

section
variable (hc : t.construct node = .reaction initial condition next)
include hc

theorem parts_reaction : t.parts node = [(.own (.check node), 0), (.child initial, 0),
    (.own (.jump node ((t.code condition).length + 1 + (t.code next).length)), 1),
    (.child condition, 0), (.own (.jumpIf node (t.code next).length false), 1),
    (.child next, 0)] := by
  unfold parts
  rw [hc]

/-- The steps that a reaction skips lead from one part of its code to another. -/
theorem offset_reaction :
    t.offset node 3 = t.offset node 0 + (1 + ((t.code initial).length + 1)) ∧
      t.offset node 6 =
        t.offset node 2 + (1 + ((t.code condition).length + 1 + (t.code next).length)) ∧
      t.offset node 6 = t.offset node 4 + (1 + (t.code next).length) := by
  unfold offset
  rw [parts_reaction hc]
  simp [codeOfParts, codeOf]
  omega

end
end Tree

/-! ## What evaluations keep -/

namespace Evaluations

variable {es es' : Evaluations} {id : EvaluationId}

/-- The evaluation has begun. -/
structure HasBegun (es : Evaluations) (id : EvaluationId) : Prop where
  lt : id.index < es.size
  found : (es.find? id).isSome = true

/-- What has begun stays so, and no name of it is lost. -/
structure Retains (es es' : Evaluations) : Prop where
  begun : ∀ id, es.HasBegun id → es'.HasBegun id
  bound : ∀ id, es.HasBegun id → ∀ name, (get? es id name).isSome = true →
    (get? es' id name).isSome = true

theorem Retains.refl (es : Evaluations) : es.Retains es := ⟨fun _ h => h, fun _ _ _ h => h⟩

theorem Retains.trans {es'' : Evaluations} (h : es.Retains es') (h' : es'.Retains es'') :
    es.Retains es'' :=
  ⟨fun id hid => h'.begun id (h.begun id hid),
    fun id hid name hg => h'.bound id (h.begun id hid) name (h.bound id hid name hg)⟩

theorem retains_bind (es : Evaluations) (at_ : EvaluationId) (name : String) (v : Value) :
    es.Retains (Evaluations.bind es at_ name v) := by
  refine ⟨fun id h => ⟨h.lt, ?_⟩, fun id _ other hg => ?_⟩
  · rw [find?_bind]
    split
    · rw [Option.isSome_map]
      exact h.found
    · exact h.found
  · obtain ⟨u, hu⟩ := Option.isSome_iff_exists.1 hg
    obtain ⟨e, he, hl⟩ := Option.bind_eq_some_iff.1 hu
    unfold get?
    rw [find?_bind, he]
    split
    · by_cases hname : other = name
      · subst hname
        exact Option.isSome_iff_exists.2 ⟨v, Keyed.lookup_insert_self _ _ _⟩
      · exact Option.isSome_iff_exists.2 ⟨u, (Keyed.lookup_insert_of_ne hname _ _).trans hl⟩
    · exact Option.isSome_iff_exists.2 ⟨u, hl⟩

theorem retains_begin (es : Evaluations) (e : Evaluation) : es.Retains (es.begin e).2 := by
  have hfind : ∀ id, es.HasBegun id → (es.begin e).2.find? id = es.find? id := by
    intro id h
    rw [find?_begin, if_neg]
    rintro rfl
    exact absurd h.lt (Nat.lt_irrefl _)
  refine ⟨fun id h => ⟨Nat.lt_succ_of_lt h.lt, ?_⟩, fun id h name hg => ?_⟩
  · rw [hfind id h]
    exact h.found
  · unfold get? at hg ⊢
    rwa [hfind id h]

/-- A new evaluation has begun. -/
theorem hasBegun_begin (es : Evaluations) (e : Evaluation) :
    (es.begin e).2.HasBegun (es.begin e).1 := by
  refine ⟨Nat.lt_succ_self _, ?_⟩
  rw [find?_begin]
  exact congrArg Option.isSome (if_pos rfl)

end Evaluations

namespace Machine

variable {m m1 : Machine} {w : World} {node initial condition next : NodeId} {f : Frame}
  {rest : List Frame} {streams : Streams} {es : Evaluations}

/-! ## The steps that belong to a reaction -/

/-- The evaluations after a reaction has named the value that it had before. -/
def namedPrevious (t : Tree) (node : NodeId) (id : EvaluationId) (previous : Value)
    (es : Evaluations) : Evaluations :=
  match boundName? t node with
  | some name => Evaluations.bind es id name previous
  | none => es

section
variable (hc : w.tree.construct node = .reaction initial condition next)
include hc

theorem memoized?_reaction : memoized? w node = none := by
  have hm : w.program.analysis.isMemoizable node = false := Analysis.isMemoizable_reaction hc
  unfold memoized?
  split
  · rfl
  · simp [hm]

theorem Has.start_reaction {n : Nat} (h : m.Has (f.passed n [] :: rest) es)
    (he : m.advanced.execute w (.start node) = .ok (m1, streams)) :
    m1.Has (f.passed (n + 1) [] :: rest) es := by
  have hstart : m.advanced.startNode w node = m.advanced :=
    startNode_eq_self fun _ => memoized?_reaction hc
  cases he
  rw [hstart]
  exact h.advanced

omit hc in
/-- A reaction that is new goes on to its initial value. -/
theorem Has.check_new {n : Nat} (hnew : w.pass.reactions.lookup node = none)
    (h : m.Has (f.passed n [] :: rest) es)
    (he : m.advanced.execute w (.check node) = .ok (m1, streams)) :
    m1.Has (f.passed (n + 1) [] :: rest) es := by
  have hcheck : m.advanced.checkReaction w node = m.advanced := by
    unfold Machine.checkReaction
    rw [hnew]
  cases he
  rw [hcheck]
  exact h.advanced

/-- A reaction that had a value names it and goes on to its condition. -/
theorem Has.check_kept {n : Nat} {u : Value} (hcode : w.program.code = Code.ofTree w.tree)
    (hkept : w.pass.reactions.lookup node = some u) (h : m.Has (f.passed n [] :: rest) es)
    (he : m.advanced.execute w (.check node) = .ok (m1, streams)) :
    m1.Has (f.passed (n + (1 + ((w.tree.code initial).length + 1))) [] :: rest)
      (namedPrevious w.tree node f.evaluation u es) := by
  have hlen : w.program.code.length initial = (w.tree.code initial).length := by
    rw [hcode, Code.length_ofTree]
  have hskip : ∀ {m2 : Machine} {es'}, m2.Has ((f.passed n []).skip 1 :: rest) es' →
      (m2.skip (w.program.code.length initial + 1)).Has
        (f.passed (n + (1 + ((w.tree.code initial).length + 1))) [] :: rest) es' := by
    intro m2 es' h2
    have hs := h2.skip (w.program.code.length initial + 1)
    rw [hlen] at hs ⊢
    simpa [Frame.skip, Frame.passed, Nat.add_assoc] using hs
  cases he
  unfold Machine.checkReaction namedPrevious
  rw [hkept, hc]
  cases boundName? w.tree node with
  | none => exact hskip h.advanced
  | some name => exact hskip (h.advanced.bind name u)

omit hc in
theorem Has.jump_on {v : Value} {count n : Nat} (h : m.Has (f.passed n [v] :: rest) es)
    (he : m.advanced.execute w (.jump node count) = .ok (m1, streams)) :
    m1.Has (f.passed (n + (1 + count)) [v] :: rest) es := by
  cases he
  simpa [Frame.skip, Frame.passed, Nat.add_assoc] using h.advanced.skip count

/-- The condition decides between the next value and the one that the reaction had. -/
theorem Has.decide {c : Value} {count n : Nat} (h : m.Has (f.passed n [c] :: rest) es)
    (he : m.advanced.execute w (.jumpIf node count false) = .ok (m1, streams)) :
    ∃ b, w.seen c = .boolean b ∧ m1.Has ((if b then f.passed (n + 1) [] else
      f.passed (n + (1 + count)) [(w.pass.reactions.lookup node).getD .nothing]) :: rest) es := by
  obtain ⟨hvalues, hpop⟩ := h.advanced.pop 1
  have hpop1 : m.advanced.pop 1 = ([c], (m.advanced.pop 1).2) := Prod.ext hvalues rfl
  have hframe : (((f.passed n [c]).skip 1).pop 1).2 = f.passed (n + 1) [] := by
    simp [Frame.pop, Frame.skip, Frame.passed, Nat.add_assoc]
  rw [hframe] at hpop
  have hreaction : isReaction w.tree node = true := by rw [isReaction, hc]
  unfold Machine.execute at he
  by_cases hb : ∃ b, w.seen c = .boolean b
  · obtain ⟨b, hb⟩ := hb
    refine ⟨b, hb, ?_⟩
    simp only [branch_boolean hpop1 hb, hreaction, if_true] at he
    cases he
    cases b with
    | true => exact hpop
    | false =>
      have hpush := (hpop.skip count).push ((w.pass.reactions.lookup node).getD .nothing)
      simpa [Frame.skip, Frame.push, Frame.passed, Nat.add_assoc] using hpush
  · simp only [branch_other hpop1 fun b h => hb ⟨b, h⟩] at he
    cases he

/-- A reaction finishes with what is seen of its value. -/
theorem outcomeOf_reaction {x : Value} {n : Nat} (hf : m.frames = f.passed n [x] :: rest) :
    m.outcomeOf w node = .ok (.reaction (w.seen x)) := by
  rw [outcomeOf_eq hf, World.outcome, hc]
  rfl

end

/-! ## Names that a run keeps -/

/-- From step `first` to `last` the name stands for `v` in the evaluation itself, until a step of a
definition gives it another value. -/
def StaysNamed (w : World) (machines : Nat → Machine) (id : EvaluationId) (name : String)
    (v : Value) (first last : Nat) : Prop :=
  ∀ i, first ≤ i → i ≤ last → Evaluations.get? (machines i).evaluations id name = some v ∨
    ∃ j, first ≤ j ∧ j < i ∧ ∃ definition u, (machines j).Binds w definition id u ∧
      (w.tree.construct definition).definedName? = some name

/-- No evaluation is there that has not begun. -/
def Fresh (m : Machine) : Prop :=
  ∀ id : EvaluationId, m.evaluations.size ≤ id.index → m.evaluations.find? id = none

theorem fresh_start (p : Program) : (Machine.start p).Fresh := by
  intro id hid
  rw [find?_start, if_neg]
  rintro rfl
  exact absurd hid (Nat.not_succ_le_zero 0)

theorem get?_bind_self {es : Evaluations} {id : EvaluationId} (hbegun : (es.find? id).isSome = true)
    (name : String) (v : Value) :
    Evaluations.get? (Evaluations.bind es id name v) id name = some v := by
  obtain ⟨e, he⟩ := Option.isSome_iff_exists.1 hbegun
  unfold Evaluations.get?
  rw [Evaluations.find?_bind, if_pos rfl, he]
  exact Keyed.lookup_insert_self _ _ _

section
variable {m' : Machine} {st : Step} (hw : w.tree.WellFormed)
  (hcode : w.program.code = Code.ofTree w.tree)
include hw hcode

/-- The evaluations of calls are there after every step, with the names that they have. -/
theorem execute_retains (hn : m.next? = some st)
    (he : m.advanced.execute w st = .ok (m', streams)) : m.evaluations.Retains m'.evaluations := by
  obtain ⟨f, below, hf, -⟩ := frames_of_next? hn
  obtain ⟨skip, takes, values, es', -, hm, rfl | ⟨name, v, rfl⟩⟩ | ⟨node, call, -, -, -, hm⟩ :=
    execute_cases hw hcode ⟨hf, rfl⟩ he <;> rw [hm.evaluations]
  · exact .refl _
  · exact m.evaluations.retains_bind _ name v
  · exact m.evaluations.retains_begin _

theorem step_retains (hs : m.step w = some (st, m', streams)) :
    m.evaluations.Retains m'.evaluations := by
  obtain ⟨hn, ⟨failure, -, rfl, -⟩ | ⟨m1, he, rfl⟩⟩ := step_cases hs
  · have hes : (m.advanced.fail failure).evaluations = m.evaluations := m.advanced_evaluations
    rw [hes]
    exact .refl _
  · rw [settle_evaluations]
    exact execute_retains hw hcode hn he

end

section
variable {m' : Machine} {st : Step} {id : EvaluationId} {name : String} {v : Value}
  (hw : Ready w) (h : m.Fresh) (hs : m.step w = some (st, m', streams))
include hw h hs

theorem Fresh.step : m'.Fresh := by
  intro id hid
  obtain ⟨f, below, -, -, hn | ⟨node, call, -, -, he⟩⟩ := step_evaluations hw hs
  · have hsize : m'.evaluations.size = m.evaluations.size := by
      obtain he | ⟨name, v, he⟩ := hn <;> rw [he]
      rfl
    rw [← Option.not_isSome_iff_eq_none]
    intro hsome
    obtain ⟨e, he⟩ := Option.isSome_iff_exists.1 hsome
    obtain ⟨e', he', -⟩ := (hn.find? id).1 e he
    rw [h id (hsize ▸ hid)] at he'
    cases he'
  · rw [he] at hid ⊢
    have hlt : m.evaluations.size < id.index := hid
    rw [Evaluations.find?_begin, if_neg, h id (Nat.le_of_lt hlt)]
    rintro rfl
    exact absurd hlt (Nat.lt_irrefl _)

/-- A name that is bound stays so, though its value may change. -/
theorem Fresh.stays_bound (hg : Evaluations.get? m.evaluations id name = some v) :
    ∃ u, Evaluations.get? m'.evaluations id name = some u := by
  obtain ⟨e, he, -⟩ := Option.bind_eq_some_iff.1 hg
  have hbegun : m.evaluations.HasBegun id := by
    refine ⟨Nat.lt_of_not_le fun hle => ?_, by rw [he]; rfl⟩
    rw [h id hle] at he
    cases he
  have hretains := step_retains hw.wellFormed hw.code hs
  exact Option.isSome_iff_exists.1 (hretains.bound id hbegun name (by rw [hg]; rfl))

end

section
variable {count : Nat} {steps : Nat → Option Step} (h : m.Retraces w count steps)
  (hw : Ready w) (hfresh : m.Fresh)
include h hw hfresh

theorem Retraces.fresh {i : Nat} (hi : i ≤ count) : (m.after w i).Fresh := by
  induction i with
  | zero => exact hfresh
  | succ i ih =>
    obtain ⟨st, -, hs⟩ := h i hi
    exact (ih (Nat.le_of_succ_le hi)).step hw hs

/-- What a name stands for it stands for until it is given another value. -/
theorem Retraces.staysNamed {id : EvaluationId} {name : String} {v : Value} {first last : Nat}
    (hg : Evaluations.get? (m.after w first).evaluations id name = some v) (hlast : last ≤ count) :
    StaysNamed w (m.after w) id name v first last := by
  intro i hfirst hi
  obtain ⟨n, rfl⟩ := Nat.exists_eq_add_of_le hfirst
  clear hfirst
  suffices hall : ∀ k ≤ n, (∃ u, Evaluations.get? (m.after w (first + k)).evaluations id name =
        some u) ∧ (Evaluations.get? (m.after w (first + k)).evaluations id name = some v ∨
        ∃ j, first ≤ j ∧ j < first + k ∧ ∃ definition u, (m.after w j).Binds w definition id u ∧
          (w.tree.construct definition).definedName? = some name) from (hall n (Nat.le_refl n)).2
  intro k hk
  induction k with
  | zero => exact ⟨⟨v, hg⟩, .inl hg⟩
  | succ k ih =>
    obtain ⟨⟨u, hu⟩, hcase⟩ := ih (Nat.le_of_succ_le hk)
    obtain ⟨st, -, hs⟩ := h (first + k) (by omega)
    obtain ⟨u', hu'⟩ := (h.fresh hw hfresh (by omega)).stays_bound hw hs hu
    refine ⟨⟨u', hu'⟩, ?_⟩
    obtain hv | ⟨j, h1, h2, hj⟩ := hcase
    · obtain hbefore | ⟨definition, hb, hname⟩ := step_binds hs hu'
      · rw [hv] at hbefore
        exact .inl (hbefore ▸ hu')
      · exact .inr ⟨first + k, Nat.le_add_right _ _, Nat.lt_succ_self _, definition, u', hb, hname⟩
    · exact .inr ⟨j, h1, Nat.lt_succ_of_lt h2, hj⟩

end

/-! ## From place to place in the code -/

/-- From its start at step `first`, control has come to a place in the code of the node at step
`i`, with values that the frame did not have before. -/
structure Comes (w : World) (machines : Nat → Machine) (count : Nat) (node : NodeId) (f : Frame)
    (rest : List Frame) (first i place : Nat) (values : List Value) : Prop where
  le : i ≤ count
  frames : (machines i).frames = f.passed place values :: rest
  inside : ∀ j, first ≤ j → j < i → Inside w.tree node f rest (machines j).frames

section
variable {count first i place place' k : Nat} {steps : Nat → Option Step}
  {values values' : List Value} {child : NodeId} {st : Step} {es' : Evaluations}
  (h : m.Retraces w count steps)
include h

/-- The step at a place in the code has its effect, unless control remains. -/
theorem Retraces.takes (c : Comes w (m.after w) count node f rest first i place values)
    (hstands : w.tree.Stands node place values.length)
    (hnext : (f.passed place values).next? = some st) :
    Remains w (m.after w) node f rest count first ∨
      (i < count ∧ (m.after w i).index < w.program.config.maxSteps) ∧
        (∀ j, first ≤ j → j < i + 1 → Inside w.tree node f rest (m.after w j).frames) ∧
        ∃ m1, (m.after w i).advanced.execute w st = .ok (m1, w.streams) ∧
          m.after w (i + 1) = m1.settle w := by
  have hinside : ∀ j, first ≤ j → j < i + 1 →
      Inside w.tree node f rest (m.after w j).frames := by
    intro j h1 h2
    rcases Nat.lt_or_eq_of_le (Nat.le_of_lt_succ h2) with hlt | rfl
    · exact c.inside j h1 hlt
    · rw [c.frames]
      exact .place hstands
  rcases Nat.lt_or_eq_of_le c.le with hlt | rfl
  · obtain ⟨st1, -, hs⟩ := h i hlt
    obtain ⟨hn, hcase⟩ := step_effects hs
    obtain rfl : st1 = st := by
      rw [next?, c.frames] at hn
      exact Option.some.inj (hn.symm.trans hnext)
    obtain ⟨failure, -, hfail⟩ | ⟨hallowed, m1, he, hsettle⟩ := hcase
    · have hfailed : (m.after w (i + 1)).Failed := by
        rw [hfail]
        exact ⟨rfl, rfl⟩
      refine .inl fun j h1 h2 => ?_
      rcases Nat.lt_trichotomy j (i + 1) with hj | rfl | hj
      · exact .inr (hinside j h1 hj)
      · exact .inl hfailed
      · exact absurd hfailed (h.not_failed (by omega))
    · exact .inr ⟨⟨hlt, hallowed⟩, hinside, m1, he, hsettle⟩
  · exact .inl fun j h1 h2 => .inr (hinside j h1 (Nat.lt_succ_of_le h2))

/-- The step at a place in the code leads to another place, unless control remains. -/
theorem Retraces.comes_on (c : Comes w (m.after w) count node f rest first i place values)
    (hstands : w.tree.Stands node place values.length)
    (hnext : (f.passed place values).next? = some st)
    (heffect : ∀ m1 streams, (m.after w i).advanced.execute w st = .ok (m1, streams) →
      m1.Has (f.passed place' values' :: rest) es')
    {st' : Step} (hnext' : (f.passed place' values').next? = some st') :
    Remains w (m.after w) node f rest count first ∨
      Comes w (m.after w) count node f rest first (i + 1) place' values' ∧
        (m.after w (i + 1)).evaluations = es' := by
  obtain hremains | ⟨⟨hlt, -⟩, hinside, m1, he, hsettle⟩ := h.takes c hstands hnext
  · exact .inl hremains
  · have hm1 := heffect m1 _ he
    have hafter : m.after w (i + 1) = m1 := hsettle.trans (settle_of_next? hm1.frames hnext')
    exact .inr ⟨⟨hlt, by rw [hafter, hm1.frames], hinside⟩, by rw [hafter, hm1.evaluations]⟩

/-- A child of the node is evaluated, unless control remains. -/
theorem Retraces.comes_over (c : Comes w (m.after w) count node f rest first i place [])
    (hw : Ready w) (hin : ∀ j ≤ count, (m.after w j).InTree w.tree)
    (hnode : w.tree.Reaches node) (hruns : f.Runs (w.tree.code node))
    (hplace : w.tree.offset node k = place)
    (hpart : (w.tree.parts node)[k]? = some (.child child, 0))
    (hnext : ∀ v, ∃ st, (f.passed (w.tree.offset node (k + 1)) [v]).next? = some st) :
    Remains w (m.after w) node f rest count first ∨ ∃ last v,
      Evaluates w (m.after w) child (f.passed place []) rest i last v ∧
        Comes w (m.after w) count node f rest first last (w.tree.offset node (k + 1)) [v] := by
  subst hplace
  have hoffset := Tree.offset_succ hpart
  have hchild := hruns.part_at hw.wellFormed hnode hpart []
  obtain ⟨st, hn⟩ := hnext .nothing
  rw [hoffset] at hn
  have hnext : (f.passed (w.tree.offset node k) []).steps[(f.passed (w.tree.offset node k)
      []).position + (w.tree.code child).length]? = some st := by
    rw [← hn, Frame.next?, Frame.passed, Frame.passed, Nat.add_assoc]
    rfl
  obtain hremains | ⟨last, v, hle, he⟩ := h.evaluates hw hin
    (hnode.child (Tree.mem_children_of_part hpart)) hchild c.le c.frames hnext
  · exact .inl ((hremains.part hpart).earlier c.inside)
  · refine .inr ⟨last, v, he, hle, ?_, fun j h1 h2 => ?_⟩
    · rw [he.leaves, Frame.passed_passed, hoffset]
      rfl
    · rcases Nat.lt_or_ge j i with hlt | hge
      · exact c.inside j h1 hlt
      · exact (he.inside j hge h2).part hpart

end

/-! ## The run of a reaction -/

/-- What comes of a reaction that control has come to at step `first`, and that has yielded a value
in the pass before or none. -/
inductive Reacts (w : World) (machines : Nat → Machine) (count : Nat)
    (node initial condition next : NodeId) (f : Frame) (rest : List Frame) (first : Nat) :
    Option Value → Prop where
  /-- It has no value yet: the run does not go on so far, or it has failed. -/
  | remains {previous : Option Value} (remains : Remains w machines node f rest count first) :
      Reacts w machines count node initial condition next f rest first previous
  /-- It yields its initial value. -/
  | begins {last : Nat} {x : Value}
      (value : Evaluates w machines initial (f.passed (w.tree.offset node 1) []) rest
        (first + 2) last x)
      (yields : last + 1 < count ∧ (machines (last + 1)).Yields w node (w.seen x)) :
      Reacts w machines count node initial condition next f rest first none
  /-- Its condition holds: it yields its next value. -/
  | moves {middle last : Nat} {u c y : Value}
      (named : ∀ name, boundName? w.tree node = some name →
        StaysNamed w machines f.evaluation name u (first + 2) (middle + 1))
      (test : Evaluates w machines condition (f.passed (w.tree.offset node 3) []) rest
        (first + 2) middle c)
      (holds : w.seen c = .boolean true)
      (value : Evaluates w machines next (f.passed (w.tree.offset node 5) []) rest
        (middle + 1) last y)
      (yields : last < count ∧ (machines last).Yields w node (w.seen y)) :
      Reacts w machines count node initial condition next f rest first (some u)
  /-- Its condition fails: it yields what it has yielded before. -/
  | keeps {middle : Nat} {u c : Value}
      (named : ∀ name, boundName? w.tree node = some name →
        StaysNamed w machines f.evaluation name u (first + 2) (middle + 1))
      (test : Evaluates w machines condition (f.passed (w.tree.offset node 3) []) rest
        (first + 2) middle c)
      (fails : w.seen c = .boolean false)
      (yields : middle + 1 < count ∧ (machines (middle + 1)).Yields w node u) :
      Reacts w machines count node initial condition next f rest first (some u)

/-- At the beginning of each part there is a next step, and so there is after the last one. -/
theorem next?_offset {k : Nat} (hruns : f.Runs (w.tree.code node)) (hw : w.tree.WellFormed)
    (hnode : w.tree.Reaches node) (hk : k ≤ (w.tree.parts node).length) (values : List Value) :
    ∃ st, (f.passed (w.tree.offset node k) values).next? = some st := by
  have hlt : w.tree.offset node k < (w.tree.code node).length := by
    rw [hw.length_code hnode]
    exact Nat.lt_succ_of_le (w.tree.offset_le node hk)
  have hdrop := hruns.drop (Nat.le_of_lt hlt) values
  rw [List.drop_eq_getElem_cons hlt] at hdrop
  exact ⟨_, hdrop.next?⟩

section
variable {count first i : Nat} {steps : Nat → Option Step} (h : m.Retraces w count steps)
  (hw : Ready w) (hnode : w.tree.Reaches node) (hruns : f.Runs (w.tree.code node))
  (hc : w.tree.construct node = .reaction initial condition next)
include h hw hnode hruns hc

/-- With its value a reaction comes to its finish, where it yields it. -/
theorem Retraces.finishes {x : Value}
    (c : Comes w (m.after w) count node f rest first i (w.tree.offset node 6) [x]) :
    Remains w (m.after w) node f rest count first ∨
      i < count ∧ (m.after w i).Yields w node (w.seen x) := by
  have hparts := Tree.parts_reaction hc
  have hlength : (w.tree.parts node).length = 6 := by rw [hparts]; rfl
  have hstands := Tree.Stands.finish (t := w.tree) node
  have hfinish := hruns.finish_at hw.wellFormed hnode [x]
  rw [hlength] at hstands hfinish
  rw [hc] at hstands
  obtain hremains | ⟨⟨hlt, hallowed⟩, -⟩ := h.takes c hstands hfinish.next?
  · exact .inl hremains
  · refine .inr ⟨hlt, ?_, outcomeOf_reaction hc c.frames, hallowed⟩
    rw [next?, c.frames]
    exact hfinish.next?

variable (hin : ∀ j ≤ count, (m.after w j).InTree w.tree)
include hin

/-- A reaction that has come to its initial value yields that. -/
theorem Retraces.yields_initial
    (c : Comes w (m.after w) count node f rest first i (w.tree.offset node 1) []) :
    Remains w (m.after w) node f rest count first ∨ ∃ last x,
      Evaluates w (m.after w) initial (f.passed (w.tree.offset node 1) []) rest i last x ∧
        last + 1 < count ∧ (m.after w (last + 1)).Yields w node (w.seen x) := by
  have hparts := Tree.parts_reaction hc
  have hchild : (w.tree.parts node)[1]? = some (.child initial, 0) := by rw [hparts]; rfl
  have hown : (w.tree.parts node)[2]? = some (.own
      (.jump node ((w.tree.code condition).length + 1 + (w.tree.code next).length)), 1) := by
    rw [hparts]; rfl
  have hnext : ∀ k ≤ 6, ∀ values,
      ∃ st, (f.passed (w.tree.offset node k) values).next? = some st := fun k hk values =>
    next?_offset hruns hw.wellFormed hnode (by rw [hparts]; exact hk) values
  obtain hremains | ⟨last, x, he, c⟩ :=
    h.comes_over c hw hin hnode hruns rfl hchild fun v => hnext 2 (by decide) [v]
  · exact .inl hremains
  have hjump := hruns.part_at hw.wellFormed hnode hown [x]
  obtain ⟨-, hland, -⟩ := Tree.offset_reaction hc
  obtain ⟨st, hn⟩ := hnext 6 (by decide) [x]
  rw [hland] at hn
  obtain hremains | ⟨c, -⟩ := h.comes_on c (.own hown) hjump.next?
    (fun m1 streams he => Has.jump_on ⟨c.frames, rfl⟩ he) hn
  · exact .inl hremains
  rw [← hland] at c
  obtain hremains | hyields := h.finishes hw hnode hruns hc c
  · exact .inl hremains
  · exact .inr ⟨last, x, he, hyields⟩

/-- A reaction that has come to its condition yields its next value, or what it had before. -/
theorem Retraces.yields_next {u : Value} (hkept : w.pass.reactions.lookup node = some u)
    (hplain : w.seen u = u)
    (c : Comes w (m.after w) count node f rest first i (w.tree.offset node 3) []) :
    Remains w (m.after w) node f rest count first ∨ ∃ middle v,
      Evaluates w (m.after w) condition (f.passed (w.tree.offset node 3) []) rest i middle v ∧
        ((w.seen v = .boolean false ∧
            middle + 1 < count ∧ (m.after w (middle + 1)).Yields w node u) ∨
          w.seen v = .boolean true ∧ ∃ last y,
            Evaluates w (m.after w) next (f.passed (w.tree.offset node 5) []) rest
              (middle + 1) last y ∧
            last < count ∧ (m.after w last).Yields w node (w.seen y)) := by
  have hparts := Tree.parts_reaction hc
  have htest : (w.tree.parts node)[3]? = some (.child condition, 0) := by rw [hparts]; rfl
  have hown : (w.tree.parts node)[4]? =
      some (.own (.jumpIf node (w.tree.code next).length false), 1) := by rw [hparts]; rfl
  have hchild : (w.tree.parts node)[5]? = some (.child next, 0) := by rw [hparts]; rfl
  have hnext : ∀ k ≤ 6, ∀ values,
      ∃ st, (f.passed (w.tree.offset node k) values).next? = some st := fun k hk values =>
    next?_offset hruns hw.wellFormed hnode (by rw [hparts]; exact hk) values
  obtain hremains | ⟨middle, v, he, c⟩ :=
    h.comes_over c hw hin hnode hruns rfl htest fun v => hnext 4 (by decide) [v]
  · exact .inl hremains
  have hjump := hruns.part_at hw.wellFormed hnode hown [v]
  obtain ⟨-, -, hland⟩ := Tree.offset_reaction hc
  have hfall : w.tree.offset node 5 = w.tree.offset node 4 + 1 := Tree.offset_succ hown
  obtain hremains | ⟨-, -, m1, hm1, -⟩ := h.takes c (.own hown) hjump.next?
  · exact .inl hremains
  obtain ⟨b, hb, -⟩ := Has.decide hc ⟨c.frames, rfl⟩ hm1
  have heffect : ∀ m1 streams, (m.after w middle).advanced.execute w
      (.jumpIf node (w.tree.code next).length false) = .ok (m1, streams) →
      m1.Has ((if b then f.passed (w.tree.offset node 5) [] else
        f.passed (w.tree.offset node 6) [u]) :: rest) (m.after w middle).evaluations := by
    intro m1 streams he
    obtain ⟨b', hb', hm1⟩ := Has.decide hc ⟨c.frames, rfl⟩ he
    cases hb.symm.trans hb'
    rwa [hkept, ← hfall, ← hland] at hm1
  cases b with
  | false =>
    simp only [Bool.false_eq_true, if_false] at heffect
    obtain ⟨st, hn⟩ := hnext 6 (by decide) [u]
    obtain hremains | ⟨c, -⟩ := h.comes_on c (.own hown) hjump.next? heffect hn
    · exact .inl hremains
    obtain hremains | hyields := h.finishes hw hnode hruns hc c
    · exact .inl hremains
    rw [hplain] at hyields
    exact .inr ⟨middle, v, he, .inl ⟨hb, hyields⟩⟩
  | true =>
    simp only [if_true] at heffect
    obtain ⟨st, hn⟩ := hnext 5 (by decide) []
    obtain hremains | ⟨c, -⟩ := h.comes_on c (.own hown) hjump.next? heffect hn
    · exact .inl hremains
    obtain hremains | ⟨last, y, he', c⟩ :=
      h.comes_over c hw hin hnode hruns rfl hchild fun v => hnext 6 (by decide) [v]
    · exact .inl hremains
    obtain hremains | hyields := h.finishes hw hnode hruns hc c
    · exact .inl hremains
    exact .inr ⟨middle, v, he, .inr ⟨hb, last, y, he', hyields⟩⟩

/-- Wherever a run starts a reaction, it yields its initial value if it has none from the pass
before; else its next value if its condition holds, and what it has if it does not. -/
theorem Retraces.reacts (hfresh : m.Fresh)
    (hplain : ∀ u, w.pass.reactions.lookup node = some u → w.seen u = u)
    (hfirst : first ≤ count) (henters : (m.after w first).frames = f :: rest) :
    Reacts w (m.after w) count node initial condition next f rest first
      (w.pass.reactions.lookup node) := by
  have hparts := Tree.parts_reaction hc
  have hown : (w.tree.parts node)[0]? = some (.own (.check node), 0) := by rw [hparts]; rfl
  have hnext : ∀ k ≤ 6, ∀ values,
      ∃ st, (f.passed (w.tree.offset node k) values).next? = some st := fun k hk values =>
    next?_offset hruns hw.wellFormed hnode (by rw [hparts]; exact hk) values
  have hstart : (f.passed 0 []).next? = some (.start node) := by
    have hcode := hruns
    rw [hw.wellFormed.code_eq hnode] at hcode
    exact hcode.next?
  have c : Comes w (m.after w) count node f rest first first 0 [] :=
    ⟨hfirst, henters, fun j h1 h2 => absurd h1 (Nat.not_le_of_lt h2)⟩
  obtain ⟨st, hn⟩ := hnext 0 (by decide) []
  obtain hremains | ⟨c, -⟩ := h.comes_on c (.start node) hstart
    (fun m1 streams he => Has.start_reaction hc ⟨c.frames, rfl⟩ he) hn
  · exact .remains hremains
  have c : Comes w (m.after w) count node f rest first (first + 1) (w.tree.offset node 0) [] := c
  have hcheck := hruns.part_at hw.wellFormed hnode hown []
  cases hprevious : w.pass.reactions.lookup node with
  | none =>
    have hfall : w.tree.offset node 1 = w.tree.offset node 0 + 1 := Tree.offset_succ hown
    obtain ⟨st, hn⟩ := hnext 1 (by decide) []
    rw [hfall] at hn
    obtain hremains | ⟨c, -⟩ := h.comes_on c (.own hown) hcheck.next?
      (fun m1 streams he => Has.check_new hprevious ⟨c.frames, rfl⟩ he) hn
    · exact .remains hremains
    rw [← hfall] at c
    obtain hremains | ⟨last, x, he, hyields⟩ := h.yields_initial hw hnode hruns hc hin c
    · exact .remains hremains
    exact .begins he hyields
  | some u =>
    obtain ⟨hland, -⟩ := Tree.offset_reaction hc
    obtain ⟨st, hn⟩ := hnext 3 (by decide) []
    rw [hland] at hn
    have hbegun : ((m.after w (first + 1)).evaluations.find? f.evaluation).isSome = true :=
      (hin _ c.le).frames (f.passed 1 []) (by rw [c.frames]; exact List.mem_cons_self)
    obtain hremains | ⟨c, hes⟩ := h.comes_on c (.own hown) hcheck.next?
      (fun m1 streams he => Has.check_kept hc hw.code hprevious ⟨c.frames, rfl⟩ he) hn
    · exact .remains hremains
    have hnamed : ∀ name, boundName? w.tree node = some name → ∀ last ≤ count,
        StaysNamed w (m.after w) f.evaluation name u (first + 2) last := by
      intro name hname last hlast
      refine h.staysNamed hw hfresh ?_ hlast
      rw [hes, namedPrevious, hname]
      exact get?_bind_self hbegun name u
    rw [← hland] at c
    obtain hremains | ⟨middle, v, he, ⟨hb, hyields⟩ | ⟨hb, last, y, he', hyields⟩⟩ :=
      h.yields_next hw hnode hruns hc hin hprevious (hplain u hprevious) c
    · exact .remains hremains
    · exact .keeps (fun name hname => hnamed name hname _ (Nat.le_of_lt hyields.1)) he hb hyields
    · have hlt := he'.lt
      have hle := hyields.1
      exact .moves (fun name hname => hnamed name hname _ (by omega)) he hb he' hyields

end

end Machine
end ReactiveLang
