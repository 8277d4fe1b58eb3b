import ReactiveLang.Proofs.Eval.Agreement
import ReactiveLang.Proofs.Eval.Reaching

/-!
# Stack discipline

Where control enters the code of a node, it stays in it until the node has its value, and leaves it
behind the node's finish with that one value more, or a failure ends the pass.

* `Waiting`, `Inside`: each frame, from the one in the node's code upwards, has as many values as
  `Tree.Stands` says at its place.
* `inside_step`: what one step keeps.
* `run_leavesCode`: what a whole run comes to.
-/

namespace ReactiveLang

open Machine

/-! ## Frames -/

/-- Above some values of its own the frame has as many as the places of its code say, if so many
more are still to come. -/
def Frame.Fits (places : Nat → Nat → Prop) (own : List Value) (pending : Nat) (f : Frame) : Prop :=
  ∃ values, f.values = values ++ own ∧ places f.position (values.length + pending)

namespace Frame

variable {t : Tree} {places : Nat → Nat → Prop} {own : List Value} {f : Frame} {step : Step}
  {skip takes : Nat}

/-- The value that was still to come. -/
theorem Fits.push (h : f.Fits places own 1) (v : Value) : (f.push v).Fits places own 0 := by
  obtain ⟨values, hv, hp⟩ := h
  exact ⟨v :: values, by rw [Frame.push, hv, List.cons_append], hp⟩

/-- From the place where the frame is, the code leads to places again. -/
def Guided (t : Tree) (here next : Nat → Nat → Prop) (f : Frame) : Prop :=
  ∀ height, here f.position height → ∃ step, t.Leads f.steps.toList next f.position height step

section
variable {here next : Nat → Nat → Prop} (h : f.Fits here own 0) (hg : f.Guided t here next)
include h hg

theorem Fits.next? : ∃ step, f.next? = some step ∧ t.Reaches step.node := by
  obtain ⟨values, -, hp⟩ := h
  obtain ⟨step, hl⟩ := hg _ hp
  refine ⟨step, ?_, hl.reaches⟩
  rw [Frame.next?, ← Array.getElem?_toList]
  exact hl.there

/-- The frame has the values that its next step takes, and fits its places after it. -/
theorem Fits.moves (hn : f.next? = some step) {leaves : Nat} (hm : t.Moves step skip takes leaves) :
    takes ≤ f.values.length ∧ t.Lands f.steps.toList f.position step skip ∧
      ∀ values pending, values.length + pending = leaves →
        (f.moved skip takes values).Fits next own pending := by
  obtain ⟨values, hv, hp⟩ := h
  obtain ⟨step', hl⟩ := hg _ hp
  have hstep : step' = step := by
    have hthere := hl.there
    rw [Array.getElem?_toList] at hthere
    exact Option.some.inj (hthere.symm.trans hn)
  subst hstep
  obtain ⟨htakes, hplace, hland⟩ := hl.moves hm
  rw [Nat.add_zero] at htakes hplace
  refine ⟨?_, hland, fun left pending hleft => ⟨left ++ values.drop takes, ?_, ?_⟩⟩
  · rw [hv, List.length_append]
    exact Nat.le_trans htakes (Nat.le_add_right _ _)
  · rw [Frame.moved, hv, List.drop_append_of_le_length htakes, List.append_assoc]
  · have hlen : (left ++ values.drop takes).length + pending = values.length - takes + leaves := by
      rw [List.length_append, List.length_drop]
      omega
    rw [hlen]
    exact hplace

end
end Frame

/-! ## Frames on top of each other -/

/-- The frame of a call: in the code of nodes that the root reaches, one after the other. -/
def Frame.InCall (t : Tree) (pending : Nat) (g : Frame) : Prop :=
  ∃ nodes : List NodeId, (∀ node ∈ nodes, t.Reaches node) ∧
    g.steps.toList = nodes.flatMap t.code ∧ g.Fits (t.StandsIn nodes) [] pending

/-- The places of a node's code, where it begins at the position of a frame. -/
def Tree.From (places : Nat → Nat → Prop) (f : Frame) (i height : Nat) : Prop :=
  ∃ j, i = f.position + j ∧ places j height

section
variable (t : Tree) (node : NodeId) (f : Frame) (rest : List Frame)

/-- The frame that entered the code of `node` as `f` is on top of `rest`, and the frames above it,
which run calls, wait for a value each. -/
inductive Waiting : List Frame → Prop where
  | entered {g : Frame} (later : f.Later g)
      (fits : g.Fits (Tree.From (t.Passes node) f) f.values 1) : Waiting (g :: rest)
  | call {g : Frame} {below : List Frame} (call : g.InCall t 1) (waiting : Waiting below) :
      Waiting (g :: below)

/-- The frame that runs is the one that entered the code and is still in it, or runs a call from
there. -/
inductive Inside : List Frame → Prop where
  | entered {g : Frame} (later : f.Later g)
      (fits : g.Fits (Tree.From (t.Stands node) f) f.values 0) : Inside (g :: rest)
  | call {g : Frame} {below : List Frame} (call : g.InCall t 0) (runs : g.isDone = false)
      (waiting : Waiting t node f rest below) : Inside (g :: below)

/-- After the effect of a step: the frame that runs may be done, or at the end of the code. -/
inductive Settling : List Frame → Prop where
  | entered {g : Frame} (later : f.Later g)
      (fits : g.Fits (Tree.From (t.Passes node) f) f.values 0) : Settling (g :: rest)
  | call {g : Frame} {below : List Frame} (call : g.InCall t 0)
      (waiting : Waiting t node f rest below) : Settling (g :: below)

/-- Control has left the code of the node: it is behind its finish, with one value more. -/
def Leaves (w : World) (m : Machine) : Prop :=
  ∃ (m1 : Machine) (v : Value), m1.frames = f.passed (t.code node).length [v] :: rest ∧
    m = m1.settle w

end

section
variable {t : Tree} {node : NodeId} {f g : Frame} {rest below : List Frame} {st : Step}
  {m : Machine} {w : World}

theorem Waiting.push (h : Waiting t node f rest (g :: below)) (v : Value) :
    Settling t node f rest (g.push v :: below) := by
  cases h with
  | entered later fits => exact .entered ⟨later.kind, later.steps, later.evaluation⟩ (fits.push v)
  | call call waiting =>
    obtain ⟨nodes, hr, hsteps, hfits⟩ := call
    exact .call ⟨nodes, hr, hsteps, hfits.push v⟩ waiting

/-- A frame that runs a call is guided by the code of the call's nodes, until it is done. -/
theorem guided_call (hw : t.WellFormed) {nodes : List NodeId} (hr : ∀ node ∈ nodes, t.Reaches node)
    (hs : g.steps.toList = nodes.flatMap t.code) (hd : g.isDone = false) :
    g.Guided t (t.StandsIn nodes) (t.StandsIn nodes) := by
  intro height hp
  obtain heq | hl := hp.leads hw hr
  · have hlt : g.position < g.steps.size := by simpa [Frame.isDone] using hd
    rw [← Array.length_toList, hs, ← heq] at hlt
    exact absurd hlt (Nat.lt_irrefl _)
  · rw [hs]
    exact hl

section
variable (hw : t.WellFormed) (hnode : t.Reaches node) (hruns : f.Runs (t.code node))
include hw hnode hruns

/-- The frame in the code of the node is guided by that code. -/
theorem guided_entered (later : f.Later g) :
    g.Guided t (Tree.From (t.Stands node) f) (Tree.From (t.Passes node) f) := by
  rintro height ⟨j, hj, hs⟩
  obtain ⟨step, hl⟩ := hs.leads hw hnode
  have ha : t.Leads f.steps.toList (Tree.From (t.Passes node) f) (f.position + j) (0 + height)
      step := hl.around hruns fun i height h => ⟨i, rfl, by rwa [Nat.zero_add]⟩
  rw [Nat.zero_add, ← hj, ← later.steps] at ha
  exact ⟨step, ha⟩

/-- Control in the code has a next step, and the values for it are there. It stays in the code of
the step's node, and so does the frame. -/
theorem Inside.moves (h : Inside t node f rest (g :: below)) :
    ∃ step, g.next? = some step ∧ t.Reaches step.node ∧
      ∀ {skip takes leaves}, t.Moves step skip takes leaves →
        takes ≤ g.values.length ∧ t.Lands g.steps.toList g.position step skip ∧
          (∀ values, values.length = leaves →
            Settling t node f rest (g.moved skip takes values :: below)) ∧
          ∀ values, values.length + 1 = leaves →
            Waiting t node f rest (g.moved skip takes values :: below) := by
  cases h with
  | entered later fits =>
    have hg := guided_entered hw hnode hruns later
    obtain ⟨step, hn, hr⟩ := fits.next? hg
    refine ⟨step, hn, hr, fun hm => ?_⟩
    obtain ⟨htakes, hland, hfits⟩ := fits.moves hg hn hm
    exact ⟨htakes, hland, fun values hv => .entered (later.moved _ _ _) (hfits values 0 hv),
      fun values hv => .entered (later.moved _ _ _) (hfits values 1 hv)⟩
  | call call runs waiting =>
    obtain ⟨nodes, hr, hsteps, fits⟩ := call
    have hg := guided_call hw hr hsteps runs
    obtain ⟨step, hn, hreach⟩ := fits.next? hg
    refine ⟨step, hn, hreach, fun hm => ?_⟩
    obtain ⟨htakes, hland, hfits⟩ := fits.moves hg hn hm
    exact ⟨htakes, hland, fun values hv => .call ⟨nodes, hr, hsteps, hfits values 0 hv⟩ waiting,
      fun values hv => .call ⟨nodes, hr, hsteps, hfits values 1 hv⟩ waiting⟩

/-- When the frames that are done are left, control is in the code, or has left it. -/
theorem Settling.settle (h : Settling t node f rest m.frames) :
    Inside t node f rest (m.settle w).frames ∨ Leaves t node f rest w (m.settle w) := by
  generalize hn : m.frames.length = n
  induction n generalizing m with
  | zero =>
    rw [List.length_eq_zero_iff.1 hn] at h
    cases h
  | succ n ih =>
    generalize hfr : m.frames = frames at h hn
    cases h with
    | @entered g later fits =>
      obtain ⟨values, hv, j, hj, hs | ⟨rfl, hone⟩⟩ := fits
      · have hin : g.Fits (Tree.From (t.Stands node) f) f.values 0 := ⟨values, hv, j, hj, hs⟩
        obtain ⟨step, hnext, -⟩ := hin.next? (guided_entered hw hnode hruns later)
        rw [settle_of_next? hfr hnext, hfr]
        exact .inl (.entered later hin)
      · -- the frame is where it entered the code, but for the code and one value
        obtain ⟨v, rfl⟩ := List.length_eq_one_iff.1 hone
        refine .inr ⟨m, v, ?_, rfl⟩
        rw [hfr, Frame.passed, ← hj, ← hv, ← later.steps, ← later.kind, ← later.evaluation]
    | @call g below call waiting =>
      cases hd : g.isDone with
      | false =>
        obtain ⟨nodes, hr, hsteps, fits⟩ := call
        obtain ⟨step, hnext, -⟩ := fits.next? (guided_call hw hr hsteps hd)
        rw [settle_of_next? hfr hnext, hfr]
        exact .inl (.call ⟨nodes, hr, hsteps, fits⟩ hd waiting)
      | true =>
        obtain ⟨caller, below', rfl⟩ : ∃ caller below', below = caller :: below' := by
          cases waiting <;> exact ⟨_, _, rfl⟩
        obtain ⟨m1, v, hm1, hsettle⟩ := settle_of_done (w := w) ⟨hfr, rfl⟩ hd
        rw [hsettle]
        refine ih ?_ ?_
        · rw [hm1.frames]
          exact waiting.push v
        · rw [hm1.frames]
          simpa using hn

end

section
variable (hw : Ready w) (hnode : w.tree.Reaches node) (hruns : f.Runs (w.tree.code node))
include hw hnode hruns

theorem Inside.execute {m' : Machine} {streams : Streams} (hin : m.InTree w.tree)
    (h : Inside w.tree node f rest (g :: below)) (hn : g.next? = some st)
    (hm : m.Has (g :: below) m.evaluations)
    (he : m.advanced.execute w st = .ok (m', streams)) :
    Settling w.tree node f rest m'.frames := by
  obtain ⟨st', hn', hreach, hmoves⟩ := h.moves hw.wellFormed hnode hruns
  obtain rfl : st' = st := Option.some.inj (hn'.symm.trans hn)
  obtain ⟨skip, takes, values, es, hmove, hm', -⟩ | ⟨caller, call, hs, hmove, ho, hm'⟩ :=
    execute_cases hw.wellFormed hw.code hm he
  · rw [hm'.frames]
    exact (hmoves hmove).2.2.1 values rfl
  · rw [hm'.frames]
    have hwait := (hmoves hmove).2.2.2 [] rfl
    have hcall := hin.call_reaches hw hreach hs hm ho
    exact .call ⟨w.tree.calledNodes call.definition (call.provided w.tree),
      fun n hn => hcall.calledNode hn, call.frame_steps hw.code _, [], rfl,
      w.tree.standsIn_begin _ (Nat.zero_le _)⟩ hwait

/-- What a step comes to whose control was in the code of a node. -/
inductive Goes (w : World) (node : NodeId) (f : Frame) (rest : List Frame) (m : Machine) : Prop where
  | failed (frames : m.frames = []) (status : m.status = .exception)
  | inside (frames : Inside w.tree node f rest m.frames)
  | left (leaves : Leaves w.tree node f rest w m)

/-- A step from the code of a node fails, or stays in the code, or leaves it behind its finish. -/
theorem Inside.goes {m' : Machine} {streams : Streams} (hin : m.InTree w.tree)
    (h : Inside w.tree node f rest m.frames) (hs : m.step w = some (st, m', streams)) :
    (m'.InTree w.tree ∧ streams.Holds (Handle.InTree w.tree)) ∧
      Goes { w with streams } node f rest m' := by
  obtain ⟨hnext, hcase⟩ := step_cases hs
  obtain ⟨g, below, hf, hn⟩ := frames_of_next? hnext
  rw [hf] at h
  obtain ⟨st', hn', hreach, -⟩ := h.moves hw.wellFormed hnode hruns
  obtain rfl : st' = st := Option.some.inj (hn'.symm.trans hn)
  refine ⟨hin.step hw hreach hs, ?_⟩
  obtain ⟨f', -, rfl, rfl⟩ | ⟨m1, he, rfl⟩ := hcase
  · exact .failed rfl rfl
  · have hsettling := h.execute hw hnode hruns hin hn ⟨hf, rfl⟩ he
    rcases hsettling.settle (w := { w with streams }) hw.wellFormed hnode hruns with hi | hl
    · exact .inside hi
    · exact .left hl

end
end

section
variable {t : Tree} {node : NodeId} {f : Frame} {rest : List Frame} {m : Machine} {w : World}
  {st : Step}

/-- Before the first step of the code. -/
theorem Inside.enter (t : Tree) (node : NodeId) (f : Frame) (rest : List Frame) :
    Inside t node f rest (f :: rest) :=
  .entered ⟨rfl, rfl, rfl⟩ ⟨[], rfl, 0, rfl, .start node⟩

/-! ## Single steps -/

/-- The number of values that a step takes. -/
def Step.takes (t : Tree) : Step → Nat
  | .jumpIf _ _ _ => 1
  | .finish node => (t.construct node).operandCount
  | _ => 0

/-- The machine is about to take a step, for which there are all values that it takes. If it does
not fail, it goes on in the code of the node that the step belongs to, or to the end of that code
from the node's finish, or where a value of the pass before takes the place of the code. A call that
it begins puts one frame on top. -/
structure Machine.Disciplined (w : World) (m : Machine) (st : Step) (g : Frame)
    (below : List Frame) : Prop where
  frames : m.frames = g :: below
  takes : st.takes w.tree ≤ g.values.length
  lands : ∀ m' streams, m.advanced.execute w st = .ok (m', streams) → ∃ skip above values,
    m'.frames = above ++ { g with position := g.position + skip, values } :: below ∧
      above.length ≤ 1 ∧ w.tree.Lands g.steps.toList g.position st skip

theorem Inside.disciplined (hw : Ready w) (hnode : w.tree.Reaches node)
    (hruns : f.Runs (w.tree.code node)) (h : Inside w.tree node f rest m.frames)
    (hs : m.next? = some st) : ∃ g below, m.Disciplined w st g below := by
  obtain ⟨g, below, hf, hn⟩ := frames_of_next? hs
  rw [hf] at h
  obtain ⟨st', hn', -, hmoves⟩ := h.moves hw.wellFormed hnode hruns
  obtain rfl : st' = st := Option.some.inj (hn'.symm.trans hn)
  refine ⟨g, below, hf, ?_, fun m' streams he => ?_⟩
  · cases st' with
    | jumpIf node count when => exact (hmoves (.stay node count when)).1
    | finish node =>
      obtain ⟨leaves, hmove⟩ := w.tree.exists_moves_finish node
      exact (hmoves hmove).1
    | _ => exact Nat.zero_le _
  · obtain ⟨skip, takes, values, es, hmove, hm', -⟩ | ⟨caller, call, -, hmove, -, hm'⟩ :=
      execute_cases hw.wellFormed hw.code ⟨hf, rfl⟩ he
    · exact ⟨skip, [], _, hm'.frames, Nat.zero_le _, (hmoves hmove).2.1⟩
    · exact ⟨1, [_], _, hm'.frames, Nat.le_refl _, (hmoves hmove).2.1⟩

end

/-! ## Runs -/

namespace Pass

variable {p : Program} {pass : Pass} {node : NodeId} {f : Frame} {rest : List Frame}
  {c : Machine × Streams}

theorem ready (hp : Prepared p pass) {streams : Streams}
    (hs : streams.Holds (Handle.InTree p.tree)) (replaying : Bool) :
    Ready ⟨p, pass, streams, replaying⟩ := ⟨hp.wellFormed, hp.code, hp.pass, hs⟩

/-- The run stays in the code of the node, step by step, until it fails, or leaves the code behind
its finish with one value more. -/
def LeavesCode (p : Program) (pass : Pass) (node : NodeId) (f : Frame) (rest : List Frame)
    (c : Machine × Streams) : Prop :=
  ∃ k, (∀ i < k, Inside p.tree node f rest (run p pass i c).1.frames ∧
      ∃ st g below, (run p pass i c).1.next? = some st ∧
        (run p pass i c).1.Disciplined ⟨p, pass, (run p pass i c).2, false⟩ st g below) ∧
    (((run p pass k c).1.frames = [] ∧ (run p pass k c).1.status = .exception) ∨
      Leaves p.tree node f rest ⟨p, pass, (run p pass k c).2, false⟩ (run p pass k c).1)

/-- One step before. -/
theorem LeavesCode.earlier {st : Step} {m : Machine} {streams : Streams} {g : Frame}
    {below : List Frame} (h : LeavesCode p pass node f rest (m, streams))
    (hin : Inside p.tree node f rest c.1.frames)
    (hd : c.1.Disciplined ⟨p, pass, c.2, false⟩ st g below)
    (hs : c.1.step ⟨p, pass, c.2, false⟩ = some (st, m, streams)) :
    LeavesCode p pass node f rest c := by
  obtain ⟨k, hinside, hend⟩ := h
  have hrun : ∀ i, run p pass (i + 1) c = run p pass i (m, streams) := fun i => by
    simp only [run, hs]
  refine ⟨k + 1, fun i hi => ?_, by rwa [hrun]⟩
  cases i with
  | zero => exact ⟨hin, st, g, below, (step_cases hs).1, hd⟩
  | succ i =>
    rw [hrun]
    exact hinside i (Nat.lt_of_succ_lt_succ hi)

theorem LeavesCode.of_goes {m : Machine} {streams : Streams}
    (h : Goes ⟨p, pass, streams, false⟩ node f rest m)
    (hinside : Inside p.tree node f rest m.frames → LeavesCode p pass node f rest (m, streams)) :
    LeavesCode p pass node f rest (m, streams) := by
  cases h with
  | failed frames status => exact ⟨0, nofun, .inl ⟨frames, status⟩⟩
  | inside frames => exact hinside frames
  | left leaves => exact ⟨0, nofun, .inr leaves⟩

section
variable (hp : Prepared p pass) (hnode : p.tree.Reaches node) (hruns : f.Runs (p.tree.code node))
include hp hnode hruns

omit hp in
theorem Inside.next? (hw : p.tree.WellFormed) {m : Machine}
    (h : Inside p.tree node f rest m.frames) : ∃ st, m.next? = some st := by
  cases hf : m.frames with
  | nil =>
    rw [hf] at h
    cases h
  | cons g below =>
    rw [hf] at h
    obtain ⟨st, hn, -⟩ := h.moves hw hnode hruns
    exact ⟨st, by rw [Machine.next?, hf]; exact hn⟩

theorem inside_step (hin : c.1.InTree p.tree) (hs : c.2.Holds (Handle.InTree p.tree))
    (h : Inside p.tree node f rest c.1.frames) : ∃ st m streams g below,
      c.1.step ⟨p, pass, c.2, false⟩ = some (st, m, streams) ∧
        c.1.Disciplined ⟨p, pass, c.2, false⟩ st g below ∧ m.InTree p.tree ∧
        streams.Holds (Handle.InTree p.tree) ∧ Goes ⟨p, pass, streams, false⟩ node f rest m := by
  have hw := ready hp hs false
  obtain ⟨st, hn⟩ := Inside.next? hnode hruns hp.wellFormed h
  obtain ⟨⟨st', m, streams⟩, hstep⟩ : ∃ r, c.1.step ⟨p, pass, c.2, false⟩ = some r := by
    rw [step_eq, hn]
    exact ⟨_, rfl⟩
  obtain ⟨g, below, hd⟩ := h.disciplined hw hnode hruns (step_cases hstep).1
  obtain ⟨⟨hm, hstreams⟩, hgoes⟩ := h.goes hw hnode hruns hin hstep
  exact ⟨st', m, streams, g, below, hstep, hd, hm, hstreams, hgoes⟩

/-- There is an end to it, since a pass may take only so many steps. -/
theorem leavesCode_of_inside {left : Nat} (hleft : p.config.maxSteps ≤ c.1.index + left)
    (hin : c.1.InTree p.tree) (hs : c.2.Holds (Handle.InTree p.tree))
    (h : Inside p.tree node f rest c.1.frames) : LeavesCode p pass node f rest c := by
  induction left generalizing c with
  | zero =>
    obtain ⟨st, m, streams, g, below, hstep, hd, -, -, hgoes⟩ := inside_step hp hnode hruns hin hs h
    refine (LeavesCode.of_goes hgoes fun hinside => ?_).earlier h hd hstep
    -- that step was one too many, so the pass is finished
    obtain ⟨st', hn⟩ := Inside.next? hnode hruns hp.wellFormed hinside
    rw [(step_isLive hstep).1.next?_eq_none_iff.2 (step_limit hstep hleft)] at hn
    cases hn
  | succ left ih =>
    obtain ⟨st, m, streams, g, below, hstep, hd, hm, hstreams, hgoes⟩ :=
      inside_step hp hnode hruns hin hs h
    have hleft' : p.config.maxSteps ≤ m.index + left := by
      have hindex := (step_isLive hstep).2
      omega
    exact (LeavesCode.of_goes hgoes fun hi => ih hleft' hm hstreams hi).earlier h hd hstep

/-- Where control enters the code of a node, it stays in it until the pass fails or the node has its
value. -/
theorem run_leavesCode (hin : c.1.InTree p.tree) (hs : c.2.Holds (Handle.InTree p.tree))
    (hf : c.1.frames = f :: rest) : LeavesCode p pass node f rest c :=
  leavesCode_of_inside hp hnode hruns (Nat.le_add_left _ _) hin hs
    (hf ▸ .enter p.tree node f rest)

end
end Pass
end ReactiveLang
