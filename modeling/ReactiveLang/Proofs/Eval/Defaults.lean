import Mathlib.Logic.Relation
import ReactiveLang.Proofs.Eval.Brackets
import ReactiveLang.Proofs.Eval.Reacting

/-!
# Defaults run before the body

A call runs the defaults of the inputs that were left out, one after the other, and then the body.
The steps of a node's code are left only by the finish of the node (`Within.leads`), which gives the
default its name. So where some of the nodes that a frame runs are behind its position, those of
them that have a default are bound (`Tree.Through`).

* `Machine.Awaits`: the frame of a call is there and so far with its nodes, or all its defaults are
  bound, or the pass has failed.
* `Awaits.settle`, `Awaits.step`: a step keeps that true, whatever frames are above.
* `Awaits.along`: so does a run.
-/

namespace ReactiveLang

/-! ## Names that are bound -/

/-- The name of a node has a value in an evaluation itself. -/
def Tree.BoundIn (t : Tree) (es : Evaluations) (id : EvaluationId) (node : NodeId) : Prop :=
  ∃ name v, (t.construct node).definedName? = some name ∧ Evaluations.get? es id name = some v

/-- The name of a node has a value, if the node has a default. -/
def Tree.Defaulted (t : Tree) (es : Evaluations) (id : EvaluationId) (node : NodeId) : Prop :=
  t.hasDefault node = true → t.BoundIn es id node

theorem Evaluations.Retains.boundIn {t : Tree} {es es' : Evaluations} {id : EvaluationId}
    {node : NodeId} (h : es.Retains es') (hid : es.HasBegun id) (hb : t.BoundIn es id node) :
    t.BoundIn es' id node := by
  obtain ⟨name, v, hname, hg⟩ := hb
  obtain ⟨u, hu⟩ := Option.isSome_iff_exists.1 (h.bound id hid name (by rw [hg]; rfl))
  exact ⟨name, u, hname, hu⟩

/-! ## The code of nodes, one after the other -/

namespace Tree

variable {t : Tree} {node : NodeId} {i position : Nat} {opens : List NodeId} {st : Step}
  {skip takes leaves : Nat} {nodes : List NodeId} {done done' : NodeId → Prop}

/-- In the code of a node its own bracket is the outermost one that is open, but for its start. -/
theorem Within.outermost (h : t.Within node i opens) :
    opens = [] ∧ i = 0 ∨ opens.getLast? = some node := by
  cases h with
  | start => exact .inl ⟨rfl, rfl⟩
  | child part inside => exact .inr List.getLast?_concat
  | _ => exact .inr rfl

/-- A step stays in the code of a node, or it is the node's finish. -/
theorem Within.leads (hw : t.WellFormed) (hr : t.Reaches node) (h : t.Within node i opens)
    (hs : (t.code node)[i]? = some st) (hm : t.Moves st skip takes leaves)
    (hnew : st.reuses leaves = false) :
    (∃ opens', t.Within node (i + skip) opens') ∨
      i + skip = (t.code node).length ∧ st = .finish node := by
  obtain ⟨st', hturning⟩ := h.turning hw hr
  obtain rfl : st' = st := Option.some.inj (hturning.there.symm.trans hs)
  obtain ⟨opens', hturns, hinside | ⟨hend, rfl⟩⟩ := hturning.moves hm
  · exact .inl ⟨opens', hinside⟩
  refine .inr ⟨hend, ?_⟩
  rw [hnew] at hturns
  cases hturns with
  | choice chooses =>
    -- nothing is open at the start only, which is no choice
    obtain ⟨-, rfl⟩ | hlast := h.outermost
    · rw [hw.code_head] at hs
      cases hs
      cases chooses
    · cases hlast
  | finish other =>
    obtain ⟨hnone, -⟩ | hlast := h.outermost
    · cases hnone
    · cases hlast
      rfl

theorem Within.lt (hw : t.WellFormed) (hr : t.Reaches node) (h : t.Within node i opens) :
    i < (t.code node).length := by
  obtain ⟨st, hturning⟩ := h.turning hw hr
  exact (List.getElem?_eq_some_iff.1 hturning.there).1

/-- In the code of some nodes, one after the other, where those that are behind are done. -/
inductive Through (t : Tree) (nodes : List NodeId) (done : NodeId → Prop) : Nat → Prop where
  | node {k : Nat} {node : NodeId} {i : Nat} {opens : List NodeId} (there : nodes[k]? = some node)
      (inside : t.Within node i opens) (before : ∀ n ∈ nodes.take k, done n) :
      Through t nodes done (((nodes.take k).flatMap t.code).length + i)
  | done (all : ∀ n ∈ nodes, done n) : Through t nodes done (nodes.flatMap t.code).length

theorem through_begin (t : Tree) (nodes : List NodeId) (done : NodeId → Prop) {k : Nat}
    (hk : k ≤ nodes.length) (before : ∀ n ∈ nodes.take k, done n) :
    t.Through nodes done ((nodes.take k).flatMap t.code).length := by
  rcases Nat.lt_or_ge k nodes.length with hlt | hge
  · exact .node (List.getElem?_eq_getElem hlt) (.start _) before
  · obtain rfl : k = nodes.length := Nat.le_antisymm hk hge
    rw [List.take_length] at before ⊢
    exact .done before

theorem Through.mono (h : t.Through nodes done position) (himp : ∀ n, done n → done' n) :
    t.Through nodes done' position := by
  cases h with
  | node there inside before => exact .node there inside fun n hn => himp n (before n hn)
  | done all => exact .done fun n hn => himp n (all n hn)

/-- A step goes on through the nodes, if the finish of a node does what is said of those that are
done. -/
theorem Through.step (hw : t.WellFormed) (hr : ∀ node ∈ nodes, t.Reaches node)
    (h : t.Through nodes done position) (hs : (nodes.flatMap t.code)[position]? = some st)
    (hm : t.Moves st skip takes leaves) (hnew : st.reuses leaves = false)
    (hfinish : ∀ n ∈ nodes, st = .finish n → done n) :
    t.Through nodes done (position + skip) := by
  cases h with
  | done all =>
    rw [List.getElem?_eq_none (Nat.le_refl _)] at hs
    cases hs
  | @node k node i opens there inside before =>
    have hmem := List.mem_of_getElem? there
    have hcode : (t.code node)[i]? = some st := by
      obtain ⟨rest, hrest⟩ := code_within (t := t) there
      rw [← List.getElem?_drop, ← hrest,
        List.getElem?_append_left (inside.lt hw (hr node hmem))] at hs
      exact hs
    rw [Nat.add_assoc]
    obtain ⟨opens', hinside⟩ | ⟨hend, hstep⟩ := inside.leads hw (hr node hmem) hcode hm hnew
    · exact .node there hinside before
    · rw [hend, ← length_code_take_succ there]
      refine t.through_begin nodes done (List.getElem?_eq_some_iff.1 there).1 fun n hn => ?_
      rw [List.take_add_one, there] at hn
      rcases List.mem_append.1 hn with hn | hn
      · exact before n hn
      · obtain rfl : n = node := by simpa using hn
        exact hfinish n hmem hstep

/-- Beyond the code of the first nodes, these are done. -/
theorem Through.before (hw : t.WellFormed) {first rest : List NodeId}
    (hr : ∀ node ∈ first ++ rest, t.Reaches node) (h : t.Through (first ++ rest) done position)
    (hp : (first.flatMap t.code).length ≤ position) : ∀ n ∈ first, done n := by
  cases h with
  | done all => exact fun n hn => all n (List.mem_append_left _ hn)
  | @node k node i opens there inside before =>
    rcases Nat.lt_or_ge k first.length with hlt | hge
    · -- the position is still in the code of one of the first nodes
      have hi := inside.lt hw (hr node (List.mem_of_getElem? there))
      have hlen := length_code_take_succ (t := t) there
      rw [List.take_append_of_le_length (show k + 1 ≤ first.length from hlt),
        List.take_append_of_le_length (Nat.le_of_lt hlt)] at hlen
      have hfirst : (first.flatMap t.code).length =
          ((first.take (k + 1)).flatMap t.code).length +
            ((first.drop (k + 1)).flatMap t.code).length := by
        rw [← List.length_append, ← List.flatMap_append, List.take_append_drop]
      rw [List.take_append_of_le_length (Nat.le_of_lt hlt)] at hp
      omega
    · refine fun n hn => before n ?_
      rw [List.take_append, List.take_of_length_le hge]
      exact List.mem_append_left _ hn

end Tree

/-! ## The frame of a call -/

/-- The frame of a call runs the code of these nodes, and the defaults that are behind are bound. -/
structure Frame.Prepares (t : Tree) (es : Evaluations) (nodes : List NodeId) (id : EvaluationId)
    (f : Frame) : Prop where
  evaluation : f.evaluation = id
  steps : f.steps.toList = nodes.flatMap t.code
  through : t.Through nodes (t.Defaulted es id) f.position

namespace Frame

variable {t : Tree} {es es' : Evaluations} {nodes : List NodeId} {id : EvaluationId} {f : Frame}

theorem Prepares.push (h : f.Prepares t es nodes id) (v : Value) :
    (f.push v).Prepares t es nodes id := ⟨h.evaluation, h.steps, h.through⟩

theorem Prepares.retains (h : f.Prepares t es nodes id) (hid : es.HasBegun id)
    (hes : es.Retains es') : f.Prepares t es' nodes id :=
  ⟨h.evaluation, h.steps, h.through.mono fun _ hn hdefault => hes.boundIn hid (hn hdefault)⟩

/-- With no step left all defaults are bound. -/
theorem Prepares.all (hw : t.WellFormed) (hr : ∀ node ∈ nodes, t.Reaches node)
    (h : f.Prepares t es nodes id) (hd : f.isDone = true) : ∀ n ∈ nodes, t.Defaulted es id n := by
  have hthrough := h.through
  rw [← List.append_nil nodes] at hthrough hr
  refine hthrough.before hw hr ?_
  rw [← h.steps, Array.length_toList]
  exact of_decide_eq_true hd

end Frame

namespace Machine

variable {m m' : Machine} {w : World} {s : Step} {streams : Streams} {f : Frame}
  {below : List Frame} {es : Evaluations} {t : Tree} {nodes : List NodeId} {id : EvaluationId}
  {depth : Nat}

/-- What has become of a call whose frame has so many frames below it: the frame is there and has
bound the defaults behind it, or all of them are bound, or the pass has failed. -/
inductive Awaits (t : Tree) (nodes : List NodeId) (id : EvaluationId) (depth : Nat) (m : Machine) :
    Prop where
  | calling (above : List Frame) {below : List Frame} {g : Frame}
      (frames : m.frames = above ++ g :: below) (height : below.length = depth)
      (prepares : g.Prepares t m.evaluations nodes id)
  | called (bound : ∀ n ∈ nodes, t.Defaulted m.evaluations id n)
  | failed (frames : m.frames = []) (status : m.status = .exception)

/-! ## Steps that give names -/

/-- The finish of a bind gives its name a value. -/
theorem Has.finish_binding (h : m.Has (f :: below) es) {node value : NodeId} {name : String}
    {type : Option Annotation} (hc : w.tree.construct node = .binding name type (some value))
    (he : m.advanced.execute w (.finish node) = .ok (m', streams)) :
    ∃ v, m'.evaluations = Evaluations.bind es f.evaluation name v := by
  have hpop := (h.advanced.pop (w.tree.construct node).operandCount).2
  obtain ⟨o, m1, ho, hp, hremains⟩ := h.execute_finish he
  unfold World.outcome at ho
  rw [hc] at ho
  obtain rfl := Except.ok.inj ho
  cases hp
  exact ⟨_, (hremains ((hpop.bind name _).push _)).evaluations⟩

/-- In the frame of a call no value of the pass before takes the place of a node. -/
theorem execute_anew (hw : w.tree.WellFormed) (hcode : w.program.code = Code.ofTree w.tree)
    (h : m.Has (f :: below) es) (hout : below ≠ [])
    (he : m.advanced.execute w s = .ok (m', streams)) :
    ∃ (above : List Frame) (skip takes leaves : Nat) (values : List Value) (es' : Evaluations),
      w.tree.Moves s skip takes leaves ∧ s.reuses leaves = false ∧
        m'.Has (above ++ f.moved skip takes values :: below) es' := by
  by_cases hstart : ∃ node, s = .start node
  · obtain ⟨node, rfl⟩ := hstart
    cases he
    have halone : m.advanced.inProgram = false := by
      rw [advanced_inProgram, inProgram, h.frames]
      cases below with
      | nil => exact absurd rfl hout
      | cons => rfl
    rw [startNode_eq_self fun hin => absurd hin (Bool.eq_false_iff.1 halone)]
    exact ⟨[], 1, 0, 0, [], es, .start node, rfl, h.advanced⟩
  · have hnew : ∀ leaves, s.reuses leaves = false := by
      cases s with
      | start node => exact absurd ⟨node, rfl⟩ hstart
      | _ => exact fun _ => rfl
    obtain ⟨skip, takes, values, es', hmoves, hm, -⟩ | ⟨node, call, rfl, hmoves, -, hm⟩ :=
      execute_cases hw hcode h he
    · exact ⟨[], skip, takes, _, values, es', hmoves, hnew _, hm⟩
    · exact ⟨[_], 1, _, 1, [], _, hmoves, hnew _, hm⟩

/-! ## What keeps a call -/

section
variable (hw : t.WellFormed) (hr : ∀ node ∈ nodes, t.Reaches node)
include hw hr

/-- When frames that are done are left, the frame of the call is among them only with all its
defaults bound. -/
theorem Awaits.settle (h : m.Awaits t nodes id depth) : (m.settle w).Awaits t nodes id depth := by
  generalize hn : m.frames.length = n
  induction n generalizing m with
  | zero =>
    have hnone := List.length_eq_zero_iff.1 hn
    have hsame : m.settle w = m := by
      unfold Machine.settle
      rw [hnone]
    rwa [hsame]
  | succ n ih =>
    cases h with
    | called bound => exact .called (by rwa [settle_evaluations])
    | failed frames status =>
      rw [frames] at hn
      cases hn
    | @calling above below g frames height prepares =>
      cases above with
      | nil =>
        cases hd : g.isDone with
        | true => exact .called (by rw [settle_evaluations]; exact prepares.all hw hr hd)
        | false =>
          obtain ⟨step, hnext⟩ := Frame.exists_next? hd
          rw [settle_of_next? frames hnext]
          exact .calling [] frames height prepares
      | cons top above =>
        cases hd : top.isDone with
        | false =>
          obtain ⟨step, hnext⟩ := Frame.exists_next? hd
          rw [settle_of_next? frames hnext]
          exact .calling _ frames height prepares
        | true =>
          rw [frames] at hn
          cases above with
          | nil =>
            obtain ⟨m1, v, hm, hsettle⟩ := settle_of_done (w := w) ⟨frames, rfl⟩ hd
            rw [hsettle]
            refine ih (.calling [] hm.frames height ?_) ?_
            · rw [hm.evaluations]
              exact prepares.push v
            · rw [hm.frames]
              exact Nat.succ.inj hn
          | cons caller above =>
            obtain ⟨m1, v, hm, hsettle⟩ := settle_of_done (w := w) ⟨frames, rfl⟩ hd
            rw [hsettle]
            refine ih (.calling (caller.push v :: above) hm.frames height ?_) ?_
            · rw [hm.evaluations]
              exact prepares
            · rw [hm.frames]
              exact Nat.succ.inj hn

end

section
variable (hw : w.tree.WellFormed) (hcode : w.program.code = Code.ofTree w.tree)
  (hr : ∀ node ∈ nodes, w.tree.Reaches node) (hid : m.evaluations.HasBegun id)
include hw hcode hr hid

/-- The frame of the call, when it runs, binds the defaults that it finishes. -/
theorem prepares_execute (hdepth : below ≠ []) (hf : m.frames = f :: below)
    (h : f.Prepares w.tree m.evaluations nodes id) (hn : f.next? = some s)
    (he : m.advanced.execute w s = .ok (m', streams))
    (hretains : m.evaluations.Retains m'.evaluations) :
    m'.Awaits w.tree nodes id below.length := by
  have hm : m.Has (f :: below) m.evaluations := ⟨hf, rfl⟩
  obtain ⟨above, skip, takes, leaves, values, es', hmoves, hnew, hm'⟩ :=
    execute_anew hw hcode hm hdepth he
  have hnow := h.retains hid hretains
  rw [hm'.evaluations] at hnow
  have hstep : (nodes.flatMap w.tree.code)[f.position]? = some s := by
    rw [← h.steps, Array.getElem?_toList]
    exact hn
  refine .calling above hm'.frames rfl ⟨h.evaluation, h.steps, ?_⟩
  rw [hm'.evaluations]
  refine hnow.through.step hw hr hstep hmoves hnew fun n _ hfinish hdefault => ?_
  subst hfinish
  unfold Tree.hasDefault at hdefault
  split at hdefault
  · rename_i name type value hc
    obtain ⟨v, hv⟩ := hm.finish_binding hc he
    refine ⟨name, v, by rw [hc]; rfl, ?_⟩
    rw [← hm'.evaluations, hv, h.evaluation]
    exact get?_bind_self hid.found name v
  · cases hdefault

/-- One more step. -/
theorem Awaits.step (hdepth : 0 < depth) (h : m.Awaits w.tree nodes id depth)
    (hs : m.step w = some (s, m', streams)) : m'.Awaits w.tree nodes id depth := by
  obtain ⟨hn, ⟨failure, -, rfl, -⟩ | ⟨m1, he, rfl⟩⟩ := step_cases hs
  · exact .failed rfl rfl
  refine Awaits.settle hw hr ?_
  have hretains := execute_retains hw hcode hn he
  obtain ⟨f, rest, hf, hnext⟩ := frames_of_next? hn
  cases h with
  | called bound => exact .called fun n hmem hdefault => hretains.boundIn hid (bound n hmem hdefault)
  | failed frames _ =>
    rw [hf] at frames
    cases frames
  | @calling above below g frames height prepares =>
    rw [hf] at frames
    cases above with
    | nil =>
      obtain ⟨rfl, rfl⟩ := List.cons.inj frames
      rw [← height] at hdepth ⊢
      exact prepares_execute hw hcode hr hid (List.ne_nil_of_length_pos hdepth) hf prepares hnext he
        hretains
    | cons top above =>
      obtain ⟨rfl, rfl⟩ := List.cons.inj frames
      obtain ⟨more, skip, takes, leaves, values, es', -, -, hm⟩ :=
        execute_anew hw hcode ⟨hf, rfl⟩ (by simp) he
      refine .calling (more ++ f.moved skip takes values :: above) ?_ height
        (prepares.retains hid hretains)
      rw [hm.frames, List.append_assoc]
      rfl

end

/-! ## Runs -/

/-- A step of the program leads from the one machine to the other, whatever streams and values of
the pass before there are. -/
def Precedes (p : Program) (m m' : Machine) : Prop :=
  ∃ (w : World) (s : Step) (streams : Streams), w.program = p ∧ m.step w = some (s, m', streams)

/-- What has become of a call as far as a run goes. -/
theorem Awaits.along {p : Program} (hw : p.tree.WellFormed) (hcode : p.code = Code.ofTree p.tree)
    (hr : ∀ node ∈ nodes, p.tree.Reaches node) (hdepth : 0 < depth)
    (hid : m.evaluations.HasBegun id) (h : m.Awaits p.tree nodes id depth)
    (hrun : Relation.ReflTransGen (Precedes p) m m') :
    m'.Awaits p.tree nodes id depth ∧ m.evaluations.Retains m'.evaluations := by
  induction hrun with
  | refl => exact ⟨h, .refl _⟩
  | tail _ hstep ih =>
    obtain ⟨w, s, streams, rfl, hs⟩ := hstep
    obtain ⟨hnow, hretains⟩ := ih
    exact ⟨hnow.step hw hcode hr (hretains.begun id hid) hdepth hs,
      hretains.trans (step_retains hw hcode hs)⟩

end Machine
end ReactiveLang
