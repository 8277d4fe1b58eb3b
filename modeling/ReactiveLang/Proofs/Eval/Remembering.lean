import ReactiveLang.Proofs.Eval.Evaluating
import ReactiveLang.Proofs.Eval.Once
import ReactiveLang.Proofs.Eval.Remembered

/-!
# Values that a pass remembers

A pass remembers what the nodes of the program's own scope have given, for the pass after it. Their
code runs in one frame only, the lowest one (`Based`); calls run above it. Control in this frame
only goes forward, and comes to each step once, so what it has remembered of a node it remembers to
its end.

* `Based.step`: what a step does to the lowest frame.
* `Retraces.remembers`: from where a node has got its value, that is what the pass remembers of it.
* `Retraces.reuses`: a node with a value from the pass before gets it in one step.
-/

namespace ReactiveLang

/-- A node whose values a later pass may use is in the program's own scope, but not the program. -/
theorem Analysis.home_of_isMemoizable {a : Analysis} {node : NodeId} (hw : a.tree.WellFormed)
    (h : a.isMemoizable node = true) : a.tree.home node = a.tree.root ∧ node ≠ a.tree.root := by
  unfold isMemoizable at h
  simp only [Bool.and_eq_true, decide_eq_true_eq, Bool.not_eq_true'] at h
  obtain ⟨⟨⟨⟨-, hprogram⟩, -⟩, hscope⟩, -⟩ := h
  refine ⟨by rw [Tree.home, hscope]; rfl, ?_⟩
  rintro rfl
  obtain ⟨block, hb⟩ := hw.root
  rw [hb] at hprogram
  cases hprogram

/-- The step with which control comes to the end of a node's code, in the frame in which it came to
the code. -/
theorem Inside.last_step {t : Tree} {node : NodeId} {f g : Frame} {s : Step} (hw : t.WellFormed)
    (hnode : t.Reaches node) (hruns : f.Runs (t.code node)) (h : Inside t node f [] [g])
    (hn : g.next? = some s) {skip takes leaves : Nat} (hm : t.Moves s skip takes leaves)
    (he : g.position + skip = f.position + (t.code node).length) :
    s = .finish node ∨ s = .start node ∧ g.position = f.position := by
  cases h with
  | entered later fits =>
    obtain ⟨own, -, i, hi, hstands⟩ := fits
    obtain ⟨step, hl⟩ := hstands.leads hw hnode
    have hthere := hruns.getElem? hl.there
    rw [← hi, ← later.steps] at hthere
    obtain rfl : step = s := Option.some.inj (hthere.symm.trans hn)
    obtain hfinish | ⟨hstart, rfl⟩ :=
      hw.lands_end hnode hl.reaches (hl.moves hm).2.2 (by omega)
    · exact .inl hfinish
    · exact .inr ⟨hstart, hi⟩
  | call call runs waiting => cases waiting

namespace Machine

variable {m m1 m' : Machine} {w : World} {s : Step} {streams : Streams} {node : NodeId} {v : Value}
  {f g : Frame} {calls calls1 : List Frame}

/-! ## The program's frame -/

/-- The program's own frame is the lowest one, and the frames above it run calls, whose code is in
other scopes. -/
structure Based (t : Tree) (m : Machine) (calls : List Frame) (g : Frame) : Prop where
  frames : m.frames = calls ++ [g]
  steps : g.steps.toList = t.code t.root
  calls : ∀ f ∈ calls, ∀ s ∈ f.steps.toList, t.Reaches s.node ∧ t.home s.node ≠ t.root

/-- What the effect of a step does to the program's frame `g` and the calls above it. -/
inductive Moved (t : Tree) (s : Step) (calls : List Frame) (g : Frame) :
    List Frame → Frame → Prop where
  /-- The step is of a call. -/
  | within {calls1 : List Frame} (some : calls ≠ []) (some1 : calls1 ≠ []) :
    Moved t s calls g calls1 g
  | moves {skip takes : Nat} {values : List Value} (none : calls = [])
      (moves : t.Moves s skip takes values.length) :
    Moved t s calls g [] (g.moved skip takes values)
  | begins {call : Frame} {takes : Nat} (none : calls = []) :
      Moved t s calls g [call] (g.moved 1 takes [])

/-- Control in the program's frame only goes forward. -/
theorem Moved.position {t : Tree} (hw : t.WellFormed) {g1 : Frame}
    (h : Moved t s calls g calls1 g1) :
    g.position ≤ g1.position ∧ (calls = [] → g.position < g1.position) := by
  cases h with
  | within some => exact ⟨Nat.le_refl _, fun h => absurd h some⟩
  | @moves skip takes values none moves =>
    have hpos := moves.pos hw
    have hposition : (g.moved skip takes values).position = g.position + skip := rfl
    omega
  | begins => exact ⟨Nat.le_succ _, fun _ => Nat.lt_succ_self _⟩

section
variable (hw : Ready w) (hin : m.InTree w.tree) (hb : Based w.tree m calls g)
include hb

/-- The step that comes next is of a call, or stands in the program's frame. -/
theorem Based.next (hn : m.next? = some s) :
    (calls ≠ [] → w.tree.Reaches s.node ∧ w.tree.home s.node ≠ w.tree.root) ∧
      (calls = [] → g.next? = some s) := by
  obtain ⟨f, below, hf, hfn⟩ := frames_of_next? hn
  rw [hb.frames] at hf
  refine ⟨fun hc => ?_, fun hc => ?_⟩
  · obtain ⟨top, rest, rfl⟩ := List.exists_cons_of_ne_nil hc
    obtain rfl := (List.cons.inj hf).1
    exact hb.calls top (by simp) s (Array.mem_toList_iff.2 (Array.mem_of_getElem? hfn))
  · subst hc
    obtain rfl := (List.cons.inj hf).1
    exact hfn

include hw hin

theorem Based.execute (hn : m.next? = some s)
    (he : m.advanced.execute w s = .ok (m1, streams)) : ∃ calls1 g1, Based w.tree m1 calls1 g1 ∧
      Moved w.tree s calls g calls1 g1 := by
  obtain ⟨hcall, hown⟩ := hb.next hn
  have hreach : w.tree.Reaches s.node := by
    by_cases hc : calls = []
    · have hmem : s ∈ w.tree.code w.tree.root := by
        rw [← hb.steps]
        exact Array.mem_toList_iff.2 (Array.mem_of_getElem? (hown hc))
      exact (hw.wellFormed.code_home ⟨0, .root⟩ hmem).1
    · exact (hcall hc).1
  have hbegun : ∀ {call : Call} {id : EvaluationId}, w.tree.Reaches call.definition →
      ∀ s ∈ (call.frame w.program id).steps.toList,
        w.tree.Reaches s.node ∧ w.tree.home s.node ≠ w.tree.root := by
    intro call id hd s hs
    rw [Call.frame, hw.code, Code.ofCall_ofTree] at hs
    exact ⟨(hw.wellFormed.called_home hd hs).1, hw.wellFormed.called_ne_root hd hs⟩
  cases calls with
  | nil =>
    have hm : m.Has [g] m.evaluations := ⟨hb.frames, rfl⟩
    obtain ⟨skip, takes, values, es, hmove, hm1, -⟩ | ⟨node, call, hs, -, ho, hm1⟩ :=
      execute_cases hw.wellFormed hw.code hm he
    · exact ⟨[], _, ⟨hm1.frames, hb.steps, List.forall_mem_nil _⟩, .moves rfl hmove⟩
    · refine ⟨[_], _, ⟨hm1.frames, hb.steps, fun f hf => ?_⟩, .begins rfl⟩
      obtain rfl := List.mem_singleton.1 hf
      exact hbegun (hin.call_reaches hw hreach hs hm ho)
  | cons top rest =>
    have hm : m.Has (top :: (rest ++ [g])) m.evaluations := ⟨hb.frames, rfl⟩
    have htop : ∀ {skip takes : Nat} {values : List Value},
        ∀ f ∈ top.moved skip takes values :: rest, ∀ s ∈ f.steps.toList,
          w.tree.Reaches s.node ∧ w.tree.home s.node ≠ w.tree.root := by
      intro skip takes values f hf
      rcases List.mem_cons.1 hf with rfl | hf
      · exact hb.calls top (by simp)
      · exact hb.calls f (by simp [hf])
    obtain ⟨skip, takes, values, es, -, hm1, -⟩ | ⟨node, call, hs, -, ho, hm1⟩ :=
      execute_cases hw.wellFormed hw.code hm he
    · exact ⟨_ :: rest, g, ⟨hm1.frames, hb.steps, htop⟩,
        .within (List.cons_ne_nil _ _) (List.cons_ne_nil _ _)⟩
    · refine ⟨_ :: _ :: rest, g, ⟨hm1.frames, hb.steps, fun f hf => ?_⟩,
        .within (List.cons_ne_nil _ _) (List.cons_ne_nil _ _)⟩
      rcases List.mem_cons.1 hf with rfl | hf
      · exact hbegun (hin.call_reaches hw hreach hs hm ho)
      · exact htop f hf

end

theorem Based.settle {t : Tree} (hb : Based t m calls g) :
    (m.settle w).frames = [] ∨ ∃ calls' g', Based t (m.settle w) calls' g' ∧
      g'.position = g.position := by
  cases calls with
  | nil =>
    obtain ⟨-, hnone | hsame⟩ := settle_alone (w := w) hb.frames
    · exact .inl hnone
    · rw [hsame]
      exact .inr ⟨[], g, hb, rfl⟩
  | cons f calls =>
    cases settle_returns (w := w) hb.frames with
    | @waits calls' some frames memo steps =>
      refine .inr ⟨calls', g, ⟨frames, hb.steps, fun f' hf' => ?_⟩, rfl⟩
      obtain ⟨f'', hf'', hs⟩ := steps f' hf'
      rw [hs]
      exact hb.calls f'' hf''
    | @back m1 v memo settles =>
      have hhas := (has_handed w m1 g [] v).frames
      rw [settles]
      obtain ⟨-, hnone | hsame⟩ := settle_alone (w := w) hhas
      · exact .inl hnone
      · rw [hsame]
        exact .inr ⟨[], g.push v, ⟨hhas, hb.steps, nofun⟩, rfl⟩

section
variable (hw : Ready w) (hin : m.InTree w.tree) (hb : Based w.tree m calls g)
  (hs : m.step w = some (s, m', streams))
include hw hin hb hs

/-- A step moves control in the program's frame on, or leaves it where it waits for a call. -/
theorem Based.step : m'.frames = [] ∨ ∃ calls' g', Based w.tree m' calls' g' ∧
    g.position ≤ g'.position ∧ (calls = [] → g.position < g'.position) := by
  obtain ⟨hn, ⟨failure, -, rfl, -⟩ | ⟨m1, he, rfl⟩⟩ := step_cases hs
  · exact .inl rfl
  · obtain ⟨calls1, g1, hb1, hmoved⟩ := hb.execute hw hin hn he
    obtain hnone | ⟨calls', g', hb', hposition⟩ := hb1.settle (w := { w with streams })
    · exact .inl hnone
    · refine .inr ⟨calls', g', hb', ?_⟩
      rw [hposition]
      exact hmoved.position hw.wellFormed

/-- A step changes what is remembered of a node of the program's own only if it starts the node,
finishes it, or returns from a call that it has made. -/
theorem Based.step_lookup (hhome : w.tree.home node = w.tree.root)
    (hown : calls = [] → s ≠ .start node ∧ s ≠ .finish node)
    (hreturn : calls ≠ [] → ∀ n, g.position = n + 1 → g.steps[n]? ≠ some (.finish node)) :
    m'.memo.lookup node = m.memo.lookup node := by
  obtain ⟨hn, ⟨failure, -, rfl, -⟩ | ⟨m1, he, rfl⟩⟩ := step_cases hs
  · exact congrArg (List.lookup node) m.advanced_memo
  · obtain ⟨calls1, g1, hb1, hmoved⟩ := hb.execute hw hin hn he
    have hne : s ≠ .start node ∧ s ≠ .finish node := by
      by_cases hc : calls = []
      · exact hown hc
      · have hother := ((hb.next hn).1 hc).2
        exact ⟨fun heq => hother (heq ▸ hhome), fun heq => hother (heq ▸ hhome)⟩
    rw [settle_lookup_of_ne hb1.frames, execute_lookup_of_ne hne.1 hne.2 he, advanced_memo]
    intro hc n hposition
    cases hmoved with
    | within some => exact hreturn some n hposition
    | moves => exact absurd rfl hc
    | begins none =>
      obtain rfl : n = g.position := (Nat.succ.inj hposition).symm
      have hnext := (hb.next hn).2 none
      exact fun heq => hne.2 (Option.some.inj (hnext.symm.trans heq))

/-- Where control leaves the code of a node of the program's own, the node's value is remembered. -/
theorem Based.step_remembers (hnode : w.tree.Reaches node) (hruns : f.Runs (w.tree.code node))
    (hm : w.program.analysis.isMemoizable node = true) (hv : v.isPortable = true)
    (hinside : Inside w.tree node f [] m.frames)
    (hleaves : m'.frames = [f.passed (w.tree.code node).length [v]]) :
    m'.memo.lookup node = some v := by
  obtain ⟨hn, ⟨failure, -, rfl, -⟩ | ⟨m1, he, rfl⟩⟩ := step_cases hs
  · cases hleaves
  obtain ⟨calls1, g1, hb1, hmoved⟩ := hb.execute hw hin hn he
  have hlast := hw.wellFormed.code_last hnode
  have hpos := hw.wellFormed.code_length_pos node
  by_cases hc : calls1 = []
  · -- the program's frame has moved, so it was the node's last step
    subst hc
    cases hmoved with
    | within some some1 => exact absurd rfl some1
    | @moves skip takes values none moves =>
      subst none
      have hsame : m1.settle { w with streams } = m1 := by
        obtain ⟨-, hnone | hsame⟩ := settle_alone (w := { w with streams }) hb1.frames
        · rw [hnone] at hleaves
          cases hleaves
        · exact hsame
      rw [hsame] at hleaves ⊢
      have hframe : g.moved skip takes values = f.passed (w.tree.code node).length [v] :=
        (List.cons.inj (hb1.frames.symm.trans hleaves)).1
      rw [hb.frames] at hinside
      obtain rfl | ⟨rfl, hbegin⟩ := hinside.last_step hw.wellFormed hnode hruns
        ((hb.next hn).2 rfl) moves (congrArg Frame.position hframe)
      · exact execute_finish_lookup hm hv he hleaves rfl
      · have hhas : m.Has [g] m.evaluations := ⟨hb.frames, rfl⟩
        have hskip : skip = (w.tree.code node).length := by
          have hposition : g.position + skip = f.position + (w.tree.code node).length :=
            congrArg Frame.position hframe
          omega
        obtain ⟨rfl, hleft⟩ := hw.wellFormed.start_moves hnode moves hskip
        obtain ⟨u, rfl⟩ := List.length_eq_one_iff.1 hleft
        have hvalues : u :: g.values = v :: f.values := congrArg Frame.values hframe
        cases he
        exact startNode_lookup hhas.advanced.frames hleaves
          (congrArg _ (List.cons.inj hvalues).2.symm)
  · have hlast' := hruns.getElem? hlast
    refine settle_lookup (w := { w with streams }) hm hv hb1.frames hc hleaves rfl
      (n := f.position + ((w.tree.code node).length - 1)) ?_ hlast'
    show f.position + (w.tree.code node).length = _
    omega

end

/-! ## Runs -/

/-- Control in the program's frame is at a place or further on; while the frame waits for a call, it
is further on. -/
inductive Past (t : Tree) (place : Nat) (m : Machine) : Prop where
  | ended (frames : m.frames = [])
  | based {calls : List Frame} {g : Frame} (based : Based t m calls g) (le : place ≤ g.position)
      (lt : calls ≠ [] → place < g.position)

section
variable (hw : Ready w) (hin : m.InTree w.tree) {place : Nat} (hp : Past w.tree place m)
  (hs : m.step w = some (s, m', streams))
include hw hin hp hs

theorem Past.step : Past w.tree place m' := by
  cases hp with
  | ended frames => exact absurd frames (frames_ne_nil_of_next? (step_cases hs).1)
  | @based calls g based le lt =>
    obtain hnone | ⟨calls', g', hb', hle, hlt⟩ := based.step hw hin hs
    · exact .ended hnone
    · refine .based hb' (Nat.le_trans le hle) fun _ => ?_
      by_cases hc : calls = []
      · exact Nat.lt_of_le_of_lt le (hlt hc)
      · exact Nat.lt_of_lt_of_le (lt hc) hle

/-- Past the code of a node, nothing new is remembered of it. -/
theorem Past.lookup (hhome : w.tree.home node = w.tree.root)
    (hpast : ∀ i, place ≤ i → (w.tree.code w.tree.root)[i]? ≠ some (.start node) ∧
      (w.tree.code w.tree.root)[i]? ≠ some (.finish node)) :
    m'.memo.lookup node = m.memo.lookup node := by
  cases hp with
  | ended frames => exact absurd frames (frames_ne_nil_of_next? (step_cases hs).1)
  | @based calls g based le lt =>
    have hsteps : ∀ i, g.steps[i]? = (w.tree.code w.tree.root)[i]? := fun i => by
      rw [← based.steps, Array.getElem?_toList]
    refine based.step_lookup hw hin hs hhome (fun hc => ?_) fun hc n hn => ?_
    · have hnext := (based.next (step_cases hs).1).2 hc
      rw [Frame.next?, hsteps] at hnext
      have hne := hpast _ le
      rw [hnext] at hne
      exact ⟨fun heq => hne.1 (congrArg some heq), fun heq => hne.2 (congrArg some heq)⟩
    · rw [hsteps]
      exact (hpast n (by have := lt hc; omega)).2

end

section
variable {count first last : Nat} {steps : Nat → Option Step} (h : m.Retraces w count steps)
  (hw : Ready w) (hin : ∀ i ≤ count, (m.after w i).InTree w.tree)
include h hw hin

/-- From where control is past the code of a node, what is remembered of the node stays. -/
theorem Retraces.past {place : Nat} (hlast : last ≤ count)
    (hp : Past w.tree place (m.after w last)) (hhome : w.tree.home node = w.tree.root)
    (hpast : ∀ i, place ≤ i → (w.tree.code w.tree.root)[i]? ≠ some (.start node) ∧
      (w.tree.code w.tree.root)[i]? ≠ some (.finish node)) :
    (m.after w count).memo.lookup node = (m.after w last).memo.lookup node := by
  obtain ⟨n, rfl⟩ := Nat.exists_eq_add_of_le hlast
  suffices hkeeps : ∀ k ≤ n, Past w.tree place (m.after w (last + k)) ∧
      (m.after w (last + k)).memo.lookup node = (m.after w last).memo.lookup node from
    (hkeeps n (Nat.le_refl n)).2
  intro k hk
  induction k with
  | zero => exact ⟨hp, rfl⟩
  | succ k ih =>
    obtain ⟨hp, hlookup⟩ := ih (Nat.le_of_succ_le hk)
    obtain ⟨s, -, hs⟩ := h (last + k) (by omega)
    have hink := hin (last + k) (by omega)
    exact ⟨hp.step hw hink hs, (hp.lookup hw hink hs hhome hpast).trans hlookup⟩

variable (hstart : Based w.tree m [] g)
include hstart

theorem Retraces.based {i : Nat} (hi : i ≤ count) : (m.after w i).frames = [] ∨
    ∃ calls g, Based w.tree (m.after w i) calls g := by
  induction i with
  | zero => exact .inr ⟨[], g, hstart⟩
  | succ i ih =>
    obtain ⟨s, -, hs⟩ := h i hi
    obtain hnone | ⟨calls, g, hb⟩ := ih (Nat.le_of_succ_le hi)
    · exact absurd hnone (frames_ne_nil_of_next? (step_cases hs).1)
    · obtain hnone | ⟨calls', g', hb', -⟩ := hb.step hw (hin i (Nat.le_of_succ_le hi)) hs
      · exact .inl hnone
      · exact .inr ⟨calls', g', hb'⟩

/-- The code of a node of the program's own runs in the program's frame. -/
theorem Retraces.alone {rest : List Frame} (hi : first ≤ count)
    (hframes : (m.after w first).frames = f :: rest) (hn : f.next? = some s)
    (hhome : w.tree.home s.node = w.tree.root) :
    rest = [] ∧ Based w.tree (m.after w first) [] f := by
  obtain hnone | ⟨calls, g, hb⟩ := h.based hw hin hstart hi
  · rw [hframes] at hnone
    cases hnone
  · have hnext : (m.after w first).next? = some s := by
      rw [next?, hframes]
      exact hn
    have hnone : calls = [] := by
      by_contra hc
      exact ((hb.next hnext).1 hc).2 hhome
    subst hnone
    have hframes' := hb.frames
    rw [hframes] at hframes'
    cases hframes'
    exact ⟨rfl, hb⟩

/-- What a node of the program's own has given, the pass remembers to its end. -/
theorem Retraces.remembers (hnodup : (w.tree.code w.tree.root).Nodup) {rest : List Frame}
    (he : Evaluates w (m.after w) node f rest first last v) (hlast : last ≤ count)
    (hm : w.program.analysis.isMemoizable node = true) (hv : v.isPortable = true) :
    (m.after w count).memo.lookup node = some v := by
  obtain ⟨hhome, -⟩ := Analysis.home_of_isMemoizable hw.wellFormed hm
  have hpos := hw.wellFormed.code_length_pos node
  have hlt := he.lt
  have hbegin := he.runs.getElem? (hw.wellFormed.code_head node)
  obtain ⟨rfl, hb⟩ := h.alone hw hin hstart (by omega) he.enters hbegin hhome
  have hsteps : ∀ i, f.steps[i]? = (w.tree.code w.tree.root)[i]? := fun i => by
    rw [← hb.steps, Array.getElem?_toList]
  rw [hsteps] at hbegin
  have hnode : w.tree.Reaches node :=
    (hw.wellFormed.code_home ⟨0, .root⟩ (List.mem_of_getElem? hbegin)).1
  have hend := he.runs.getElem? (hw.wellFormed.code_last hnode)
  rw [hsteps] at hend
  obtain ⟨k, rfl⟩ := Nat.exists_eq_succ_of_ne_zero (Nat.ne_zero_of_lt hlt)
  obtain ⟨s, -, hs⟩ := h k hlast
  obtain hnone | ⟨calls, g, hbk⟩ := h.based hw hin hstart (Nat.le_of_succ_le hlast)
  · exact absurd hnone (frames_ne_nil_of_next? (step_cases hs).1)
  have hremembered := hbk.step_remembers hw (hin k (Nat.le_of_succ_le hlast)) hs hnode he.runs hm hv
    (he.inside k (Nat.le_of_lt_succ hlt) (Nat.lt_succ_self k)) he.leaves
  have hleft : Based w.tree (m.after w (k + 1)) [] (f.passed (w.tree.code node).length [v]) :=
    ⟨he.leaves, hb.steps, nofun⟩
  have hp : Past w.tree (f.position + (w.tree.code node).length) (m.after w (k + 1)) :=
    .based hleft (Nat.le_refl _) fun hne => absurd rfl hne
  rw [h.past hw hin hlast hp hhome fun i hi => ⟨fun heq => ?_, fun heq => ?_⟩]
  · exact hremembered
  -- the only start of the node and its only finish are in its code
  · have := (List.getElem?_inj (List.getElem?_eq_some_iff.1 heq).1 hnodup).1 (heq.trans hbegin.symm)
    omega
  · have := (List.getElem?_inj (List.getElem?_eq_some_iff.1 heq).1 hnodup).1 (heq.trans hend.symm)
    omega

/-- A node that starts with a value of the pass before has it at once. -/
theorem Retraces.reuses {rest : List Frame} (hfirst : first < count)
    (hlimit : (m.after w first).index < w.program.config.maxSteps)
    (hnode : w.tree.Reaches node) (hruns : f.Runs (w.tree.code node))
    (hframes : (m.after w first).frames = f :: rest) (hmemo : memoized? w node = some v) :
    rest = [] ∧ Evaluates w (m.after w) node f [] first (first + 1) v := by
  obtain ⟨-, hm, -⟩ := memoized?_eq_some_iff.1 hmemo
  obtain ⟨hhome, hne⟩ := Analysis.home_of_isMemoizable hw.wellFormed hm
  have hbegin := hruns.getElem? (hw.wellFormed.code_head node)
  obtain ⟨rfl, hb⟩ := h.alone hw hin hstart (Nat.le_of_lt hfirst) hframes hbegin hhome
  have hnext : (m.after w first).next? = some (.start node) := by
    rw [next?, hframes]
    exact hbegin
  -- the program's frame goes on after the node, since only the program ends where it does
  obtain ⟨st, hst⟩ : ∃ st, (f.passed (w.tree.code node).length [v]).next? = some st := by
    refine Frame.exists_next? (decide_eq_false fun hdone => hne ?_)
    have hcode : w.tree.code node <+: (w.tree.code w.tree.root).drop f.position := hb.steps ▸ hruns
    suffices hend :
        f.position + (w.tree.code node).length = 0 + (w.tree.code w.tree.root).length from
      hw.wellFormed.same_end hnode ⟨0, .root⟩ hcode (List.prefix_refl _) hend
    have hle := hcode.length_le
    have hpos := hw.wellFormed.code_length_pos node
    have hsize : f.steps.size = (w.tree.code w.tree.root).length := by
      rw [← hb.steps, Array.length_toList]
    have hdone' : f.steps.size ≤ f.position + (w.tree.code node).length := hdone
    rw [List.length_drop] at hle
    omega
  obtain ⟨s, -, hs⟩ := h first hfirst
  obtain ⟨hn, ⟨failure, hfail, -⟩ | ⟨m1, hexecute, hsettle⟩⟩ := step_cases hs
  all_goals obtain rfl : s = .start node := Option.some.inj (hn.symm.trans hnext)
  · unfold effect at hfail
    rw [if_neg (by omega)] at hfail
    cases hfail
  · have hm1 : m1.frames = [f.passed (w.tree.code node).length [v]] := by
      have hhas : (m.after w first).Has [f] (m.after w first).evaluations := ⟨hframes, rfl⟩
      have hlength : w.program.code.length node = (w.tree.code node).length := by
        rw [hw.code, Code.length_ofTree]
      have hskip : f.position + 1 + ((w.tree.code node).length - 1) =
          f.position + (w.tree.code node).length := by
        have := hw.wellFormed.code_length_pos node
        omega
      cases hexecute
      simp only [startNode, inProgram, hhas.advanced.frames, hmemo, List.length_singleton,
        decide_true, if_true, push, skip, withFrame, Frame.push, Frame.skip, Frame.passed, hlength,
        hskip]
      rfl
    refine ⟨rfl, hruns, hframes, Nat.lt_succ_self first, fun i h1 h2 => ?_, ?_⟩
    · obtain rfl : i = first := by omega
      rw [hframes]
      exact .enter w.tree node f []
    · rw [hsettle, settle_of_next? hm1 hst, hm1]


end

end Machine
end ReactiveLang
