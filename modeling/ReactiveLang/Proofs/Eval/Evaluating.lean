import ReactiveLang.Proofs.Eval.Discipline
import ReactiveLang.Proofs.Eval.Retracing

/-!
# Where nodes are evaluated in a run

A node is evaluated by the steps between the one that starts it and the first after its finish
(`Evaluates`). A run that starts a node evaluates it, or comes to its own end in the node's code
(`Remains`): `Retraces.evaluates`. Control in the code of a child is in the code of the node
(`Inside.part`), so the runs of children make up that of the node.
-/

namespace ReactiveLang

open Machine

/-! ## The code of children -/

section
variable {t : Tree} {node child : NodeId} {f g : Frame} {rest frames : List Frame}
  {k base : Nat} {values : List Value}

/-- Places in a frame that is further on are places in the frame itself. -/
theorem Frame.Fits.around {places places' : Nat → Nat → Prop} {pending n : Nat}
    (h : g.Fits (Tree.From places (f.passed n values)) (f.passed n values).values pending)
    (hplaces : ∀ i height, places i height → places' (n + i) (values.length + height)) :
    g.Fits (Tree.From places' f) f.values pending := by
  obtain ⟨own, hv, j, hj, hp⟩ := h
  refine ⟨own ++ values, by rw [hv, Frame.passed_values, List.append_assoc], n + j, ?_, ?_⟩
  · rw [hj, Frame.passed, Nat.add_assoc]
  · have hplace := hplaces j _ hp
    rwa [← Nat.add_assoc, ← Nat.add_comm own.length, ← List.length_append] at hplace

section
variable (hpart : (t.parts node)[k]? = some (.child child, values.length))
include hpart

theorem Waiting.part (h : Waiting t child (f.passed (t.offset node k) values) rest frames) :
    Waiting t node f rest frames := by
  induction h with
  | entered later fits =>
    exact .entered ⟨later.kind, later.steps, later.evaluation⟩
      (fits.around fun i height h => .inl (h.child hpart))
  | call call _ ih => exact .call call ih

/-- Control in the code of a child is in the code of the node. -/
theorem Inside.part (h : Inside t child (f.passed (t.offset node k) values) rest frames) :
    Inside t node f rest frames := by
  cases h with
  | entered later fits =>
    exact .entered ⟨later.kind, later.steps, later.evaluation⟩
      (fits.around fun i height h => .child hpart h)
  | call call runs waiting => exact .call call runs (waiting.part hpart)

end

/-- The frame that runs is at a place of the node's code. -/
theorem Inside.place {n : Nat} (h : t.Stands node n values.length) :
    Inside t node f rest (f.passed n values :: rest) :=
  .entered ⟨rfl, rfl, rfl⟩ ⟨values, rfl, n, rfl, h⟩

/-- A step of the code is as far on in the frame as it is in the code. -/
theorem Frame.Runs.getElem? {code : List Step} (h : f.Runs code) {i : Nat} {s : Step}
    (hs : code[i]? = some s) : f.steps[f.position + i]? = some s := by
  rw [← Array.getElem?_toList]
  exact Tree.getElem?_inside h hs

/-- From a place of the code on, the rest of it comes next. -/
theorem Frame.Runs.drop {code : List Step} (h : f.Runs code) {n : Nat} (hn : n ≤ code.length)
    (values : List Value) : (f.passed n values).Runs (code.drop n) := by
  have hright := Runs.right (a := code.take n) (b := code.drop n)
    (by rwa [List.take_append_drop]) values
  rwa [List.length_take_of_le hn] at hright

section
variable (h : f.Runs (t.code node)) (hw : t.WellFormed) (hr : t.Reaches node)
include h hw hr

/-- In a frame that runs the code of a node, each part of the code comes at its offset. -/
theorem Frame.Runs.part_at {p : Part} (hpart : (t.parts node)[k]? = some (p, base))
    (values : List Value) : (f.passed (t.offset node k) values).Runs (t.codeOf p) := by
  have hle : t.offset node k ≤ (t.code node).length := by
    rw [hw.length_code hr]
    exact Nat.le_succ_of_le (t.offset_le node (Nat.le_of_lt (List.getElem?_eq_some_iff.1 hpart).1))
  exact (hw.part_within hr hpart).trans (h.drop hle values)

/-- After the last part the finish of the node comes. -/
theorem Frame.Runs.finish_at (values : List Value) :
    (f.passed (t.offset node (t.parts node).length) values).Runs [.finish node] := by
  have hdrop := h.drop (n := t.offset node (t.parts node).length)
    (by rw [hw.length_code hr]; exact Nat.le_succ _) values
  rw [hw.drop_offset hr, List.drop_length] at hdrop
  exact hdrop

end

/-- A frame that is about to start a node runs the whole code of the node. -/
theorem Inside.starts {below : List Frame} {started : NodeId} (hw : t.WellFormed)
    (hr : t.Reaches node) (hruns : f.Runs (t.code node))
    (h : Inside t node f rest (g :: below)) (hn : g.next? = some (.start started)) :
    t.Reaches started ∧ g.Runs (t.code started) := by
  obtain ⟨step, hn', hreach, hmoves⟩ := h.moves hw hr hruns
  obtain rfl : step = .start started := Option.some.inj (hn'.symm.trans hn)
  refine ⟨hreach, ?_⟩
  -- a value of the pass before may take the place of the code, so it is all there
  obtain ⟨base, j, hposition, hcode, hland⟩ := (hmoves (.reuse started)).2.1
  have hpos := hw.code_length_pos started
  obtain rfl : j = 0 := by
    rcases hland with hlt | ⟨heq, -⟩
    · exact absurd hlt (by simp [Step.node])
    · have : j + (t.code started).length = (t.code started).length := heq
      omega
  rw [Nat.add_zero] at hposition
  rw [Frame.Runs, hposition]
  exact hcode

end

/-! ## Runs -/

namespace Machine

section
variable (w : World) (machines : Nat → Machine) (node : NodeId) (f : Frame) (rest : List Frame)

/-- The pass has ended with a failure. -/
def Failed (m : Machine) : Prop := m.frames = [] ∧ m.status = .exception

/-- From step `first` on, control is in the code of the node as far as the run goes, or a failure
has ended the pass. -/
def Remains (count first : Nat) : Prop :=
  ∀ i, first ≤ i → i ≤ count →
    (machines i).Failed ∨ Inside w.tree node f rest (machines i).frames

/-- The steps from `first` to `last` evaluate the node: control comes to its code in a frame, stays
in it, and leaves it with the value. -/
structure Evaluates (first last : Nat) (v : Value) : Prop where
  runs : f.Runs (w.tree.code node)
  enters : (machines first).frames = f :: rest
  lt : first < last
  inside : ∀ i, first ≤ i → i < last → Inside w.tree node f rest (machines i).frames
  leaves : (machines last).frames = f.passed (w.tree.code node).length [v] :: rest

end

variable {w : World} {m : Machine} {machines : Nat → Machine} {node child : NodeId} {f g : Frame}
  {rest : List Frame} {count first last k : Nat} {steps : Nat → Option Step} {values : List Value}

/-- A machine that takes a step has not failed. -/
theorem Retraces.not_failed (h : m.Retraces w count steps) {i : Nat} (hi : i < count) :
    ¬ (m.after w i).Failed := by
  obtain ⟨s, -, hs⟩ := h i hi
  exact fun hf => frames_ne_nil_of_next? (step_cases hs).1 hf.1

/-- What remains in the code of a child remains in the code of the node. -/
theorem Remains.part (hpart : (w.tree.parts node)[k]? = some (.child child, values.length))
    (h : Remains w machines child (f.passed (w.tree.offset node k) values) rest count first) :
    Remains w machines node f rest count first := fun i h1 h2 =>
  (h i h1 h2).imp_right fun hi => hi.part hpart

/-- So many steps before, control was in the code. -/
theorem Remains.earlier {before : Nat} (h : Remains w machines node f rest count first)
    (hinside : ∀ i, before ≤ i → i < first → Inside w.tree node f rest (machines i).frames) :
    Remains w machines node f rest count before := by
  intro i h1 h2
  rcases Nat.lt_or_ge i first with hlt | hge
  · exact .inr (hinside i h1 hlt)
  · exact h i hge h2

section
variable (h : m.Retraces w count steps) (hw : Ready w)
  (hin : ∀ i ≤ count, (m.after w i).InTree w.tree) (hnode : w.tree.Reaches node)
  (hruns : f.Runs (w.tree.code node)) (hfirst : first ≤ count)
  (henters : (m.after w first).frames = f :: rest)
include h hw hin hnode hruns hfirst henters

/-- Control that has come to the code of a node remains in it or leaves it. -/
theorem Retraces.walk : Remains w (m.after w) node f rest count first ∨
    ∃ last, first < last ∧ last ≤ count ∧
      (∀ i, first ≤ i → i < last → Inside w.tree node f rest (m.after w i).frames) ∧
      Leaves w.tree node f rest w (m.after w last) := by
  obtain ⟨n, rfl⟩ := Nat.exists_eq_add_of_le hfirst
  -- by induction on how far the run has been followed
  suffices hwalk : ∀ k ≤ n, Remains w (m.after w) node f rest (first + k) first ∨
      ∃ last, first < last ∧ last ≤ first + n ∧
        (∀ i, first ≤ i → i < last → Inside w.tree node f rest (m.after w i).frames) ∧
        Leaves w.tree node f rest w (m.after w last) from hwalk n (Nat.le_refl n)
  intro k hk
  induction k with
  | zero =>
    refine .inl fun i h1 h2 => .inr ?_
    obtain rfl : i = first := Nat.le_antisymm h2 h1
    rw [henters]
    exact .enter w.tree node f rest
  | succ k ih =>
    obtain hremains | hleft := ih (Nat.le_of_succ_le hk)
    · have hinside : ∀ i, first ≤ i → i < first + (k + 1) →
          Inside w.tree node f rest (m.after w i).frames := fun i h1 h2 =>
        (hremains i h1 (Nat.le_of_lt_succ h2)).resolve_left (h.not_failed (by omega))
      obtain ⟨st, -, hs⟩ := h (first + k) (by omega)
      have hgoes := (Inside.goes hw hnode hruns (hin _ (by omega))
        (hinside _ (Nat.le_add_right _ _) (by omega)) hs).2
      cases hgoes with
      | failed frames status =>
        refine .inl fun i h1 h2 => ?_
        rcases Nat.lt_or_eq_of_le h2 with hlt | rfl
        · exact .inr (hinside i h1 hlt)
        · exact .inl ⟨frames, status⟩
      | inside frames =>
        refine .inl fun i h1 h2 => .inr ?_
        rcases Nat.lt_or_eq_of_le h2 with hlt | rfl
        · exact hinside i h1 hlt
        · exact frames
      | left leaves =>
        exact .inr ⟨first + (k + 1), by omega, by omega, hinside, leaves⟩
    · exact .inr hleft

/-- Where the frame goes on after the node's code, the node is evaluated unless control remains in
the code. -/
theorem Retraces.evaluates {st : Step}
    (hnext : f.steps[f.position + (w.tree.code node).length]? = some st) :
    Remains w (m.after w) node f rest count first ∨
      ∃ last v, last ≤ count ∧ Evaluates w (m.after w) node f rest first last v := by
  obtain hremains | ⟨last, hlt, hle, hinside, m1, v, hm1, hsettle⟩ :=
    h.walk hw hin hnode hruns hfirst henters
  · exact .inl hremains
  · refine .inr ⟨last, v, hle, hruns, henters, hlt, hinside, ?_⟩
    rw [hsettle, settle_of_next? hm1 hnext, hm1]

end
end Machine
end ReactiveLang
