import Mathlib.Data.Nat.Init
import Mathlib.Logic.Relation
import ReactiveLang.Proofs.Eval.Discipline

/-!
# The life of an evaluation

An evaluation begins with a frame that is put on top of the stack. Names are bound in it while that
frame is on top, and once the frame is left nothing changes it: a structure that was made of it
agrees with it for the rest of the pass.

A step may leave several frames, so a pass is cut into smaller pieces here.

* `Change`: the effect of a step, or one frame that is left. A step is a chain of these
  (`step_changes`).
* `Alters`: what a change does to frames and evaluations (`Change.alters`). `Layered` is kept by it:
  each frame runs in an evaluation of its own, which began after those of the frames below.
* `Unfolds`: the states of a pass, one change after another. `Unfolds.exists_life`: the `Life` of an
  evaluation is one stretch of them.
* `constructed_frozen`: what a structure was made with stays in its evaluation.
-/

namespace ReactiveLang

namespace Machine

variable {p : Program} {pass : Pass} {m m' : Machine} {w : World} {f g : Frame}
  {frames frames' below : List Frame} {es es' : Evaluations} {id : EvaluationId}

/-! ## Changes -/

/-- One thing that happens in a pass: the next step has its effect or fails, or the frame on top is
done and is left. -/
inductive Change (p : Program) (pass : Pass) (m : Machine) : Machine → Prop where
  | acted {streams streams' : Streams} {replaying : Bool} {s : Step} {m' : Machine}
      (next : m.next? = some s)
      (done : effect ⟨p, pass, streams, replaying⟩ m s = .ok (m', streams')) : Change p pass m m'
  | failed {streams : Streams} {replaying : Bool} {s : Step} {failure : Failure}
      (next : m.next? = some s)
      (refused : effect ⟨p, pass, streams, replaying⟩ m s = .error failure) :
      Change p pass m (m.advanced.fail failure)
  | returned {f caller : Frame} {below : List Frame} (streams : Streams) (replaying : Bool)
      (frames : m.frames = f :: caller :: below) (done : f.isDone = true) :
      Change p pass m (handed ⟨p, pass, streams, replaying⟩ m caller below
        (m.frameResult ⟨p, pass, streams, replaying⟩ f))
  | ended {f : Frame} (streams : Streams) (replaying : Bool) (frames : m.frames = [f])
      (done : f.isDone = true) :
      Change p pass m { m with
        frames := []
        status := .completed
        result := some (m.frameResult ⟨p, pass, streams, replaying⟩ f) }

/-- Any number of changes. -/
abbrev Changes (p : Program) (pass : Pass) : Machine → Machine → Prop :=
  Relation.ReflTransGen (Change p pass)

/-- The frames that are done are left one by one. -/
theorem changes_settle (m : Machine) (streams : Streams) (replaying : Bool) :
    Changes p pass m (m.settle ⟨p, pass, streams, replaying⟩) := by
  generalize hn : m.frames.length = n
  induction n generalizing m with
  | zero =>
    have hf : m.frames = [] := List.length_eq_zero_iff.1 hn
    have hsame : m.settle ⟨p, pass, streams, replaying⟩ = m := by
      unfold settle
      rw [hf]
    rw [hsame]
  | succ n ih =>
    obtain ⟨f, below, hf⟩ := List.exists_cons_of_length_eq_add_one hn
    cases hd : f.isDone with
    | false =>
      obtain ⟨s, hs⟩ := Frame.exists_next? hd
      rw [settle_of_next? hf hs]
    | true =>
      cases below with
      | nil =>
        have hlast : Change p pass m _ := .ended streams replaying hf hd
        unfold settle
        rw [hf]
        simp only [leave, hd, if_true]
        exact .single hlast
      | cons caller below =>
        rw [settle_done hf hd]
        refine .head (.returned streams replaying hf hd) (ih _ ?_)
        rw [(has_handed _ m caller below _).frames]
        rw [hf] at hn
        simpa using hn

/-- A step is a chain of changes. -/
theorem step_changes {streams streams' : Streams} {replaying : Bool} {s : Step}
    (h : m.step ⟨p, pass, streams, replaying⟩ = some (s, m', streams')) :
    Changes p pass m m' := by
  rw [step_eq] at h
  obtain ⟨s', hs, h⟩ := Option.map_eq_some_iff.1 h
  cases he : effect ⟨p, pass, streams, replaying⟩ m s' with
  | error failure =>
    rw [he] at h
    cases h
    exact .single (.failed hs he)
  | ok r =>
    obtain ⟨m1, streams1⟩ := r
    rw [he] at h
    cases h
    exact .head (.acted hs he) (changes_settle m1 _ _)

/-- So is a run. -/
theorem run_changes (n : Nat) (c : Machine × Streams) :
    Changes p pass c.1 (Pass.run p pass n c).1 := by
  induction n generalizing c with
  | zero => exact .refl
  | succ n ih =>
    rw [Pass.run]
    split
    · rename_i _ m streams hstep
      exact (step_changes hstep).trans (ih (m, streams))
    · exact .refl

/-! ## What changes do -/

/-- What a change does to the frames and the evaluations. -/
inductive Alters : List Frame → Evaluations → List Frame → Evaluations → Prop where
  | moved {f f' : Frame} {below : List Frame} {es es' : Evaluations} (later : f.Later f')
      (named : Named es f es') : Alters (f :: below) es (f' :: below) es'
  | called {f f' g : Frame} {below : List Frame} {es : Evaluations} {e : Evaluation}
      (later : f.Later f') (begun : g.evaluation = (es.begin e).1) :
      Alters (f :: below) es (g :: f' :: below) (es.begin e).2
  | returned {f caller caller' : Frame} {below : List Frame} {es : Evaluations}
      (later : caller.Later caller') : Alters (f :: caller :: below) es (caller' :: below) es
  | emptied {frames : List Frame} {es : Evaluations} : Alters frames es [] es

theorem Change.alters (hw : p.tree.WellFormed) (hcode : p.code = Code.ofTree p.tree)
    (h : Change p pass m m') : Alters m.frames m.evaluations m'.frames m'.evaluations := by
  cases h with
  | @acted streams streams' replaying s _ next done =>
    obtain ⟨f, below, hf, -⟩ := frames_of_next? next
    obtain ⟨skip, takes, values, es, -, hm, hn⟩ | ⟨node, call, -, -, -, hm⟩ :=
      execute_cases (w := ⟨p, pass, streams, replaying⟩) hw hcode ⟨hf, rfl⟩ (effect_ok done)
    · rw [hf, hm.frames, hm.evaluations]
      exact .moved ((Frame.Later.refl f).moved skip takes values) hn
    · rw [hf, hm.frames, hm.evaluations]
      exact .called ((Frame.Later.refl f).moved _ _ _) rfl
  | failed next refused =>
    show Alters m.frames m.evaluations [] m.advanced.evaluations
    rw [advanced_evaluations]
    exact .emptied
  | @returned f caller below streams replaying frames done =>
    have hm := has_handed ⟨p, pass, streams, replaying⟩ m caller below
      (m.frameResult ⟨p, pass, streams, replaying⟩ f)
    rw [frames, hm.frames, hm.evaluations]
    exact .returned ⟨rfl, rfl, rfl⟩
  | ended => exact .emptied

/-- The evaluations have their places, and each frame runs in one that has begun, and after those of
the frames below. -/
structure Layered (frames : List Frame) (es : Evaluations) : Prop where
  known : ∀ id, (es.find? id).isSome = true ↔ id.index < es.size
  begun : ∀ f ∈ frames, f.evaluation.index < es.size
  newer : frames.Pairwise fun f g => g.evaluation.index < f.evaluation.index

theorem layered_start (p : Program) : Layered (start p).frames (start p).evaluations where
  known id := by
    have hsize : (start p).evaluations.size = 1 := rfl
    rw [find?_start, hsize]
    split
    · rename_i hid
      subst hid
      exact ⟨fun _ => Nat.one_pos, fun _ => rfl⟩
    · rename_i hid
      exact ⟨nofun, fun hlt => absurd (congrArg EvaluationId.mk (Nat.lt_one_iff.1 hlt)) hid⟩
  begun f hf := by
    obtain rfl := List.mem_singleton.1 hf
    exact Nat.one_pos
  newer := List.pairwise_singleton _ _

theorem Layered.isSome (h : Layered frames es) (hf : f ∈ frames) :
    (es.find? f.evaluation).isSome = true := (h.known _).2 (h.begun f hf)

/-- No two frames run in one evaluation. -/
theorem Layered.nodup (h : Layered frames es) : (frames.map fun f => f.evaluation).Nodup :=
  List.pairwise_map.2 (h.newer.imp fun hlt heq => Nat.ne_of_gt hlt (congrArg _ heq))

theorem Layered.congr (h : Layered (f :: below) es) {f' : Frame} (hf : f.Later f') :
    Layered (f' :: below) es := by
  obtain ⟨hnewer, hbelow⟩ := List.pairwise_cons.1 h.newer
  refine ⟨h.known, fun g hg => ?_, List.pairwise_cons.2 ⟨fun g hg => ?_, hbelow⟩⟩
  · rcases List.mem_cons.1 hg with rfl | hg
    · rw [hf.evaluation]
      exact h.begun f List.mem_cons_self
    · exact h.begun g (List.mem_cons_of_mem _ hg)
  · rw [hf.evaluation]
    exact hnewer g hg

theorem Alters.layered (h : Alters frames es frames' es') (hl : Layered frames es) :
    Layered frames' es' := by
  cases h with
  | moved later named =>
    have hl' := hl.congr later
    refine ⟨fun id => ?_, fun g hg => ?_, hl'.newer⟩
    · rw [named.isSome, named.size]
      exact hl.known id
    · rw [named.size]
      exact hl'.begun g hg
  | @called f f' g below _ e later begun =>
    have hl' := hl.congr later
    have hg : g.evaluation.index = es.size := congrArg EvaluationId.index begun
    refine ⟨fun id => ?_, fun h hh => ?_, List.pairwise_cons.2 ⟨fun h hh => ?_, hl'.newer⟩⟩
    · have hsize : (es.begin e).2.size = es.size + 1 := rfl
      rw [Evaluations.find?_begin, hsize]
      split
      · rename_i hid
        subst hid
        exact ⟨fun _ => Nat.lt_succ_self _, fun _ => rfl⟩
      · rename_i hid
        rw [hl.known id]
        refine ⟨Nat.lt_succ_of_lt, fun hlt => ?_⟩
        exact Nat.lt_of_le_of_ne (Nat.le_of_lt_succ hlt) fun heq =>
          hid (congrArg EvaluationId.mk heq)
    · rcases List.mem_cons.1 hh with rfl | hh
      · exact Nat.lt_succ_of_le (Nat.le_of_eq hg)
      · exact Nat.lt_succ_of_lt (hl'.begun h hh)
    · rw [hg]
      exact hl'.begun h hh
  | returned later =>
    have hrest : Layered (_ :: _) es := ⟨hl.known,
      fun g hg => hl.begun g (List.mem_cons_of_mem _ hg), (List.pairwise_cons.1 hl.newer).2⟩
    exact hrest.congr later
  | emptied => exact ⟨hl.known, nofun, .nil⟩

section
variable (h : Alters frames es frames' es')
include h

theorem Alters.size_le : es.size ≤ es'.size := by
  cases h with
  | moved _ named => exact Nat.le_of_eq named.size.symm
  | called _ _ => exact Nat.le_succ _
  | returned _ => exact Nat.le_refl _
  | emptied => exact Nat.le_refl _

/-- Only the evaluation of the frame on top may change. -/
theorem Alters.find?_eq (hid : id.index < es.size) (hne : es'.find? id ≠ es.find? id) :
    ∃ f below, frames = f :: below ∧ f.evaluation = id := by
  cases h with
  | @moved f f' below _ _ _ named =>
    refine ⟨f, below, rfl, ?_⟩
    exact Decidable.byContradiction fun hother => hne (named.find?_of_ne (Ne.symm hother))
  | @called f f' g below _ e _ _ =>
    refine absurd ?_ hne
    rw [Evaluations.find?_begin, if_neg]
    rintro rfl
    exact Nat.lt_irrefl _ hid
  | returned => exact absurd rfl hne
  | emptied => exact absurd rfl hne

/-- A frame in an evaluation that had begun was there before. -/
theorem Alters.later (hid : id.index < es.size) (hg : g ∈ frames') (hgid : g.evaluation = id) :
    ∃ f ∈ frames, f.evaluation = id ∧ f.Later g := by
  subst hgid
  have hsame : ∀ {g}, g ∈ frames → ∃ f ∈ frames, f.evaluation = g.evaluation ∧ f.Later g :=
    fun hg => ⟨_, hg, rfl, .refl _⟩
  cases h with
  | moved later _ =>
    rcases List.mem_cons.1 hg with rfl | hg
    · exact ⟨_, List.mem_cons_self, later.evaluation.symm, later⟩
    · exact hsame (List.mem_cons_of_mem _ hg)
  | called later begun =>
    rcases List.mem_cons.1 hg with rfl | hg
    · rw [begun] at hid
      exact absurd hid (Nat.lt_irrefl _)
    · rcases List.mem_cons.1 hg with rfl | hg
      · exact ⟨_, List.mem_cons_self, later.evaluation.symm, later⟩
      · exact hsame (List.mem_cons_of_mem _ hg)
  | returned later =>
    rcases List.mem_cons.1 hg with rfl | hg
    · exact ⟨_, List.mem_cons_of_mem _ List.mem_cons_self, later.evaluation.symm, later⟩
    · exact hsame (List.mem_cons_of_mem _ (List.mem_cons_of_mem _ hg))
  | emptied => cases hg

/-- An evaluation begins with its frame on top. -/
theorem Alters.top (hold : es.size ≤ id.index) (hnew : id.index < es'.size) :
    ∃ f below, frames' = f :: below ∧ f.evaluation = id := by
  cases h with
  | moved _ named =>
    rw [named.size] at hnew
    exact absurd hnew (Nat.not_lt_of_le hold)
  | @called f f' g below _ e _ begun =>
    refine ⟨g, f' :: below, rfl, begun.trans (congrArg EvaluationId.mk ?_)⟩
    exact Nat.le_antisymm hold (Nat.le_of_lt_succ hnew)
  | returned => exact absurd hnew (Nat.not_lt_of_le hold)
  | emptied => exact absurd hnew (Nat.not_lt_of_le hold)

end

/-! ## A pass as a whole -/

/-- The first `n` changes of a pass, and the states that they lead through. -/
structure Unfolds (p : Program) (pass : Pass) (n : Nat) (state : Nat → Machine) : Prop where
  first : state 0 = start p
  next : ∀ i < n, Change p pass (state i) (state (i + 1))

section
variable {n i j : Nat} {state : Nat → Machine} (hu : Unfolds p pass n state)
include hu

theorem Unfolds.le (hi : i ≤ n) : Unfolds p pass i state :=
  ⟨hu.first, fun k hk => hu.next k (Nat.lt_of_lt_of_le hk hi)⟩

/-- With further changes a pass is one that goes on. -/
theorem Unfolds.prolong (hc : Changes p pass (state n) m') : ∃ k state',
    Unfolds p pass (n + k) state' ∧ (∀ i ≤ n, state' i = state i) ∧ state' (n + k) = m' := by
  induction hc with
  | refl => exact ⟨0, state, hu, fun _ _ => rfl, rfl⟩
  | @tail m1 m2 _ change ih =>
    obtain ⟨k, state', hu', hsame, hlast⟩ := ih
    refine ⟨k + 1, fun i => if i ≤ n + k then state' i else m2, ⟨?_, fun i hi => ?_⟩,
      fun i hi => ?_, if_neg (by omega)⟩
    · rw [if_pos (Nat.zero_le _)]
      exact hu'.first
    · rw [if_pos (by omega)]
      by_cases hlt : i < n + k
      · rw [if_pos (by omega)]
        exact hu'.next i hlt
      · obtain rfl : i = n + k := by omega
        rw [if_neg (by omega), hlast]
        exact change
    · show (if i ≤ n + k then state' i else m2) = state i
      rw [if_pos (by omega)]
      exact hsame i hi

variable (hw : p.tree.WellFormed) (hcode : p.code = Code.ofTree p.tree)
include hw hcode

theorem Unfolds.layered (hi : i ≤ n) : Layered (state i).frames (state i).evaluations := by
  induction i with
  | zero =>
    rw [hu.first]
    exact layered_start p
  | succ i ih => exact ((hu.next i hi).alters hw hcode).layered (ih (Nat.le_of_succ_le hi))

theorem Unfolds.size_le (hij : i ≤ j) (hj : j ≤ n) :
    (state i).evaluations.size ≤ (state j).evaluations.size := by
  induction j, hij using Nat.le_induction with
  | base => exact Nat.le_refl _
  | succ j hij ih =>
    exact Nat.le_trans (ih (Nat.le_of_succ_le hj)) ((hu.next j hj).alters hw hcode).size_le

theorem Unfolds.isSome (hij : i ≤ j) (hj : j ≤ n)
    (h : ((state i).evaluations.find? id).isSome = true) :
    ((state j).evaluations.find? id).isSome = true := by
  have hi := ((hu.layered hw hcode (Nat.le_trans hij hj)).known id).1 h
  exact ((hu.layered hw hcode hj).known id).2 (Nat.lt_of_lt_of_le hi (hu.size_le hw hcode hij hj))

end

/-! ## Lives -/

/-- In the first `n` changes of a pass: the evaluation begins with the frame `f`, on top. From then
on until the frame is left, it is the one frame that runs in the evaluation, and before and after
that no frame does. The evaluation changes only while the frame is on top. -/
structure Life (n : Nat) (state : Nat → Machine) (id : EvaluationId) (begun left : Nat)
    (f : Frame) : Prop where
  lives : begun < left
  top : ∃ below, (state begun).frames = f :: below
  evaluation : f.evaluation = id
  known : ∀ i ≤ n, ((state i).evaluations.find? id).isSome = true ↔ begun ≤ i
  runs : ∀ i ≤ n, (∃ g ∈ (state i).frames, g.evaluation = id) ↔ begun ≤ i ∧ i < left
  own : ∀ i ≤ n, ∀ g ∈ (state i).frames, g.evaluation = id → f.Later g
  changes : ∀ i < n, begun ≤ i →
    (state (i + 1)).evaluations.find? id ≠ (state i).evaluations.find? id →
      ∃ g below, (state i).frames = g :: below ∧ g.evaluation = id

section
variable {n begun left i j : Nat} {state : Nat → Machine}

/-- Once the frame is left, the evaluation stays as it is. -/
theorem Life.frozen (h : Life n state id begun left f) (hi : left ≤ i) (hij : i ≤ j)
    (hj : j ≤ n) : (state j).evaluations.find? id = (state i).evaluations.find? id := by
  have hbegun := h.lives
  induction j, hij using Nat.le_induction with
  | base => rfl
  | succ j hij ih =>
    rw [← ih (Nat.le_of_succ_le hj)]
    refine Classical.byContradiction fun hne => ?_
    obtain ⟨g, below, hf, hg⟩ := h.changes j hj (by omega) hne
    have hrun := (h.runs j (Nat.le_of_succ_le hj)).1 ⟨g, by rw [hf]; exact List.mem_cons_self, hg⟩
    omega

theorem forall_le_succ {P : Nat → Prop} (hall : ∀ i ≤ n, P i) (hlast : P (n + 1)) :
    ∀ i ≤ n + 1, P i := by
  intro i hi
  obtain hle | rfl := Nat.le_succ_iff.1 hi
  · exact hall i hle
  · exact hlast

/-- One change more. -/
theorem Life.next (h : Life n state id begun left f) (hb : begun ≤ n)
    (hl : Layered (state n).frames (state n).evaluations)
    (ha : Alters (state n).frames (state n).evaluations (state (n + 1)).frames
      (state (n + 1)).evaluations) : ∃ left', Life (n + 1) state id begun left' f := by
  have hid : id.index < (state n).evaluations.size :=
    (hl.known id).1 ((h.known n (Nat.le_refl n)).2 hb)
  have hl' := ha.layered hl
  have hknown : ∀ i ≤ n + 1, ((state i).evaluations.find? id).isSome = true ↔ begun ≤ i := by
    refine forall_le_succ h.known ⟨fun _ => Nat.le_succ_of_le hb, fun _ => (hl'.known id).2 ?_⟩
    exact Nat.lt_of_lt_of_le hid ha.size_le
  have hbefore : ∀ {g}, g ∈ (state (n + 1)).frames → g.evaluation = id →
      n < left ∧ f.Later g := by
    intro g hg hgid
    obtain ⟨g0, hg0, hg0id, hlater⟩ := ha.later hid hg hgid
    exact ⟨((h.runs n (Nat.le_refl n)).1 ⟨g0, hg0, hg0id⟩).2,
      (h.own n (Nat.le_refl n) g0 hg0 hg0id).trans hlater⟩
  have hown : ∀ i ≤ n + 1, ∀ g ∈ (state i).frames, g.evaluation = id → f.Later g :=
    forall_le_succ h.own fun g hg hgid => (hbefore hg hgid).2
  have hchanges : ∀ i < n + 1, begun ≤ i →
      (state (i + 1)).evaluations.find? id ≠ (state i).evaluations.find? id →
        ∃ g below, (state i).frames = g :: below ∧ g.evaluation = id := by
    intro i hi hbi hne
    obtain hlt | rfl := Nat.lt_succ_iff_lt_or_eq.1 hi
    · exact h.changes i hlt hbi hne
    · exact ha.find?_eq hid hne
  have hlives := h.lives
  by_cases hstays : ∃ g ∈ (state (n + 1)).frames, g.evaluation = id
  · obtain ⟨g, hg, hgid⟩ := hstays
    have hn := (hbefore hg hgid).1
    refine ⟨n + 2, by omega, h.top, h.evaluation, hknown, forall_le_succ (fun i hi => ?_) ?_,
      hown, hchanges⟩
    · rw [h.runs i hi]
      omega
    · exact ⟨fun _ => by omega, fun _ => ⟨g, hg, hgid⟩⟩
  · refine ⟨min left (n + 1), by omega, h.top, h.evaluation, hknown,
      forall_le_succ (fun i hi => ?_) ?_, hown, hchanges⟩
    · rw [h.runs i hi]
      omega
    · exact ⟨fun hrun => absurd hrun hstays, by omega⟩

end

section
variable {n : Nat} {state : Nat → Machine} (hu : Unfolds p pass n state)
  (hw : p.tree.WellFormed) (hcode : p.code = Code.ofTree p.tree)
include hu hw hcode

/-- An evaluation that a change begins. -/
theorem Unfolds.life_of_new {i : Nat} (hi : i < n)
    (hnew : ((state i).evaluations.find? id).isSome = false)
    (hid : ((state (i + 1)).evaluations.find? id).isSome = true) :
    ∃ f, Life (i + 1) state id (i + 1) (i + 2) f := by
  have ha := (hu.next i hi).alters hw hcode
  have hl := hu.layered hw hcode (Nat.le_of_lt hi)
  have hl' := ha.layered hl
  -- before this change the evaluation was not there, so no frame ran in it
  have hnot : ∀ j ≤ i, ((state j).evaluations.find? id).isSome ≠ true := by
    intro j hj h
    rw [hu.isSome hw hcode hj (Nat.le_of_lt hi) h] at hnew
    cases hnew
  have hnone : ∀ j ≤ i, ∀ g ∈ (state j).frames, g.evaluation ≠ id := by
    rintro j hj g hg rfl
    exact hnot j hj ((hu.layered hw hcode (show j ≤ n by omega)).isSome hg)
  have hold : (state i).evaluations.size ≤ id.index :=
    Nat.le_of_not_lt fun hlt => hnot i (Nat.le_refl i) ((hl.known id).2 hlt)
  obtain ⟨f, below, hf, hfid⟩ := ha.top hold ((hl'.known id).1 hid)
  refine ⟨f, Nat.lt_succ_self _, ⟨below, hf⟩, hfid, forall_le_succ (fun j hj => ?_) ?_,
    forall_le_succ (fun j hj => ?_) ?_, forall_le_succ (fun j hj g hg hgid => ?_) ?_,
    fun j hj hbj => by omega⟩
  · exact ⟨fun h => absurd h (hnot j hj), by omega⟩
  · exact ⟨fun _ => Nat.le_refl _, fun _ => hid⟩
  · exact ⟨fun ⟨g, hg, hgid⟩ => absurd hgid (hnone j hj g hg), by omega⟩
  · refine ⟨fun _ => by omega, fun _ => ⟨f, ?_, hfid⟩⟩
    rw [hf]
    exact List.mem_cons_self
  · exact absurd hgid (hnone j hj g hg)
  · intro g hg hgid
    rw [hf] at hg hl'
    rcases List.mem_cons.1 hg with rfl | hg
    · exact .refl _
    · have hlt := (List.pairwise_cons.1 hl'.newer).1 g hg
      rw [hgid, hfid] at hlt
      exact absurd hlt (Nat.lt_irrefl _)

omit hw hcode in
/-- The evaluation of the program is there from the start. -/
theorem Unfolds.life_of_root (hn : n = 0) : ∃ f, Life n state .root 0 1 f := by
  subst hn
  have hroot : ((start p).evaluations.find? .root).isSome = true := by
    rw [find?_start, if_pos rfl]
    rfl
  refine ⟨_, Nat.one_pos, ⟨[], congrArg Machine.frames hu.first⟩, rfl, fun i hi => ?_,
    fun i hi => ?_, fun i hi g hg hgid => ?_, nofun⟩
  · obtain rfl := Nat.le_zero.1 hi
    rw [hu.first]
    exact ⟨fun _ => Nat.le_refl _, fun _ => hroot⟩
  · obtain rfl := Nat.le_zero.1 hi
    rw [hu.first]
    exact ⟨fun _ => ⟨Nat.le_refl _, Nat.one_pos⟩, fun _ => ⟨_, List.mem_singleton_self _, rfl⟩⟩
  · obtain rfl := Nat.le_zero.1 hi
    rw [hu.first] at hg
    obtain rfl := List.mem_singleton.1 hg
    exact .refl _

/-- Every evaluation of a pass has a life. -/
theorem Unfolds.exists_life (hid : ((state n).evaluations.find? id).isSome = true) :
    ∃ begun left f, begun ≤ n ∧ Life n state id begun left f := by
  induction n with
  | zero =>
    have hroot : id = .root := by
      rw [hu.first, find?_start] at hid
      by_cases hid' : id = .root
      · exact hid'
      · rw [if_neg hid'] at hid
        cases hid
    subst hroot
    obtain ⟨f, hlife⟩ := hu.life_of_root rfl
    exact ⟨0, 1, f, Nat.le_refl _, hlife⟩
  | succ n ih =>
    have hu' := hu.le (Nat.le_succ n)
    cases hold : ((state n).evaluations.find? id).isSome with
    | true =>
      obtain ⟨begun, left, f, hb, hlife⟩ := ih hu' hold
      have ha := (hu.next n (Nat.lt_succ_self n)).alters hw hcode
      obtain ⟨left', hlife'⟩ := hlife.next hb (hu'.layered hw hcode (Nat.le_refl n)) ha
      exact ⟨begun, left', f, Nat.le_succ_of_le hb, hlife'⟩
    | false =>
      obtain ⟨f, hlife⟩ := hu.life_of_new hw hcode (Nat.lt_succ_self n) hold hid
      exact ⟨n + 1, n + 2, f, Nat.le_refl _, hlife⟩

end

/-! ## Structures -/

/-- A frame that is done is left next, and what it gives is handed on or is the result. -/
theorem Change.of_isDone (h : Change p pass m m') (hf : m.frames = f :: below)
    (hd : f.isDone = true) : m'.evaluations = m.evaluations ∧ ∃ streams replaying,
      (∀ caller rest, below = caller :: rest → m'.frames =
        caller.push (m.frameResult ⟨p, pass, streams, replaying⟩ f) :: rest) ∧
      (below = [] → m'.frames = [] ∧
        m'.result = some (m.frameResult ⟨p, pass, streams, replaying⟩ f)) := by
  have hnone : ∀ s, m.next? ≠ some s := by
    intro s hs
    obtain ⟨g, rest, hg, hnext⟩ := frames_of_next? hs
    rw [hf] at hg
    cases hg
    rw [Frame.isDone_of_next? hnext] at hd
    cases hd
  cases h with
  | acted next _ => exact absurd next (hnone _)
  | failed next _ => exact absurd next (hnone _)
  | @returned g caller rest streams replaying frames _ =>
    rw [hf] at frames
    cases frames
    have hm := has_handed ⟨p, pass, streams, replaying⟩ m caller rest
      (m.frameResult ⟨p, pass, streams, replaying⟩ f)
    refine ⟨hm.evaluations, streams, replaying, fun caller' rest' hcons => ?_, nofun⟩
    cases hcons
    exact hm.frames
  | @ended g streams replaying frames _ =>
    rw [hf] at frames
    cases frames
    exact ⟨rfl, streams, replaying, nofun, fun _ => ⟨rfl, rfl⟩⟩

section
variable {n i j : Nat} {state : Nat → Machine} (hu : Unfolds p pass n state)
  (hw : p.tree.WellFormed) (hcode : p.code = Code.ofTree p.tree)
include hu hw hcode

/-- From when its frame is done an evaluation stays as it is. -/
theorem Unfolds.find?_of_isDone (hi : i ≤ n) (hf : (state i).frames = f :: below)
    (hd : f.isDone = true) (hij : i ≤ j) (hj : j ≤ n) :
    (state j).evaluations.find? f.evaluation = (state i).evaluations.find? f.evaluation := by
  obtain rfl | hlt := Nat.eq_or_lt_of_le hij
  · rfl
  have hi' : i < n := Nat.lt_of_lt_of_le hlt hj
  have hl := hu.layered hw hcode hi
  have hmem : f ∈ (state i).frames := by
    rw [hf]
    exact List.mem_cons_self
  have hn : ((state n).evaluations.find? f.evaluation).isSome = true :=
    hu.isSome hw hcode hi (Nat.le_refl n) (hl.isSome hmem)
  obtain ⟨begun, left, f0, -, hlife⟩ := hu.exists_life hw hcode hn
  have hrun := (hlife.runs i hi).1 ⟨f, hmem, rfl⟩
  obtain ⟨hes, streams, replaying, hcaller, hlast⟩ := (hu.next i hi').of_isDone hf hd
  -- the frames below run in other evaluations, so the frame has been left
  have hleft : left ≤ i + 1 := by
    refine Nat.le_of_not_lt fun hlater => ?_
    obtain ⟨g, hg, hgid⟩ := (hlife.runs (i + 1) hi').2 ⟨by omega, hlater⟩
    rw [hf] at hl
    cases below with
    | nil =>
      rw [(hlast rfl).1] at hg
      cases hg
    | cons caller rest =>
      have hnewer := (List.pairwise_cons.1 hl.newer).1
      rw [hcaller caller rest rfl] at hg
      rcases List.mem_cons.1 hg with rfl | hg
      · exact Nat.ne_of_lt (hnewer caller List.mem_cons_self) (congrArg _ hgid)
      · exact Nat.ne_of_lt (hnewer g (List.mem_cons_of_mem _ hg)) (congrArg _ hgid)
  rw [hlife.frozen hleft hlt hj, hes]

end

/-- In every pass each evaluation has one frame for all its life, changes only while that frame is
on top, and stays as it is once the frame is left. A structure whose frame is done agrees with its
evaluation in all states from then on. -/
theorem constructed_frozen {d : Draft} {root : NodeId} {t : Tree} {config : Config} {n : Nat}
    {state : Nat → Machine} (ht : d.finish root = .ok t)
    (hu : Unfolds (.ofTree t config) pass n state) :
    (∀ streams replaying s m' streams',
      (state n).step ⟨.ofTree t config, pass, streams, replaying⟩ = some (s, m', streams') →
        ∃ k state', Unfolds (.ofTree t config) pass (n + k) state' ∧
          (∀ i ≤ n, state' i = state i) ∧ state' (n + k) = m') ∧
    (∀ i ≤ n, ((state i).frames.map fun f => f.evaluation).Nodup) ∧
    (∀ id, ((state n).evaluations.find? id).isSome = true →
      ∃ begun left f, begun ≤ n ∧ Life n state id begun left f ∧
        ∀ i j, left ≤ i → i ≤ j → j ≤ n →
          (state j).evaluations.find? id = (state i).evaluations.find? id) ∧
    ∀ i ≤ n, ∀ f below, (state i).frames = f :: below → f.isDone = true →
      f.kind = .structureDef → ∃ object : Instance Value,
        (∀ streams replaying, (state i).frameResult ⟨.ofTree t config, pass, streams, replaying⟩ f =
          .instanceOf object) ∧
        object.evaluation = f.evaluation ∧
        (i < n → ∀ caller rest, below = caller :: rest →
          (state (i + 1)).frames = caller.push (.instanceOf object) :: rest) ∧
        ∀ j, i ≤ j → j ≤ n → ((state j).evaluations.find? object.evaluation).map
          (fun e => e.bindings) = some object.bindings := by
  have hw : (Program.ofTree t config).tree.WellFormed := Draft.finish_wellFormed ht
  refine ⟨fun streams replaying s m' streams' hstep => ?_, fun i hi => ?_, fun id hid => ?_,
    fun i hi f below hf hd hk => ?_⟩
  · exact hu.prolong (step_changes hstep)
  · exact (hu.layered hw rfl hi).nodup
  · obtain ⟨begun, left, f, hb, hlife⟩ := hu.exists_life hw rfl hid
    exact ⟨begun, left, f, hb, hlife, fun i j hi hij hj => hlife.frozen hi hij hj⟩
  · obtain ⟨-, hevaluation, hbindings⟩ := (state i).evaluations.instanceAt_fields t f.evaluation
    have hresult : ∀ streams replaying,
        (state i).frameResult ⟨.ofTree t config, pass, streams, replaying⟩ f =
          .instanceOf ((state i).evaluations.instanceAt t f.evaluation) :=
      fun _ _ => if_pos hk
    refine ⟨_, hresult, hevaluation, fun hlt caller rest hbelow => ?_, fun j hij hj => ?_⟩
    · obtain ⟨-, streams, replaying, hcaller, -⟩ := (hu.next i hlt).of_isDone hf hd
      rw [hcaller caller rest hbelow, hresult]
    · have hmem : f ∈ (state i).frames := by
        rw [hf]
        exact List.mem_cons_self
      obtain ⟨e, he⟩ := Option.isSome_iff_exists.1 ((hu.layered hw rfl hi).isSome hmem)
      rw [hevaluation, hbindings, hu.find?_of_isDone hw rfl hi hf hd hij hj, he]
      rfl

/-- Whether the next step leaves a frame on top that is done and makes a structure. -/
def constructs (p : Program) (pass : Pass) (c : Machine × Streams) : Bool :=
  match c.1.next? with
  | some s =>
    match effect ⟨p, pass, c.2, false⟩ c.1 s with
    | .ok (m, _) => m.frames.head?.any fun f => f.isDone && f.kind = .structureDef
    | .error _ => false
  | none => false

theorem of_constructs {c : Machine × Streams} (h : constructs p pass c = true) (n : Nat) :
    ∃ m f below, Change p pass c.1 m ∧ m.frames = f :: below ∧ f.isDone = true ∧
      f.kind = .structureDef ∧ Changes p pass m (Pass.run p pass (n + 1) c).1 := by
  unfold constructs at h
  split at h
  · rename_i s hs
    split at h
    · rename_i m streams he
      obtain ⟨f, hf, hmade⟩ := (Option.any_eq_true _ _).1 h
      obtain ⟨hd, hk⟩ := Bool.and_eq_true_iff.1 hmade
      obtain ⟨below, hbelow⟩ := List.head?_eq_some_iff.1 hf
      refine ⟨m, f, below, .acted hs he, hbelow, hd, of_decide_eq_true hk, ?_⟩
      rw [Pass.run, step_eq, hs, Option.map_some, he]
      exact (changes_settle m streams false).trans
        (run_changes n (m.settle ⟨p, pass, streams, false⟩, streams))
    · cases h
  · cases h

/-- The tree of a program with a structure that has a function, an instance, and a call of the
function on it, which reads the name of the instance. -/
def speakingTree : Tree :=
  ⟨#[⟨.binding "name" (some .text) none, .zero⟩, ⟨.reference "name", .zero⟩,
    ⟨.functionDef "speak" [] none (some ⟨1⟩), .zero⟩, ⟨.block [⟨2⟩], .zero⟩,
    ⟨.structureDef "Cat" [⟨0⟩] (some ⟨3⟩), .zero⟩, ⟨.reference "Cat", .zero⟩,
    ⟨.text "Tom", .zero⟩, ⟨.call ⟨5⟩ [⟨6⟩], .zero⟩, ⟨.binding "a" none (some ⟨7⟩), .zero⟩,
    ⟨.reference "a", .zero⟩, ⟨.property ⟨9⟩ "speak", .zero⟩, ⟨.call ⟨10⟩ [], .zero⟩,
    ⟨.block [⟨4⟩, ⟨8⟩, ⟨11⟩], .zero⟩, ⟨.program ⟨12⟩, .zero⟩],
    #[some ⟨4⟩, some ⟨2⟩, some ⟨3⟩, some ⟨4⟩, some ⟨12⟩, some ⟨7⟩, some ⟨7⟩, some ⟨8⟩, some ⟨12⟩,
      some ⟨10⟩, some ⟨11⟩, some ⟨12⟩, some ⟨13⟩, none], ⟨13⟩⟩

/-- The instance agrees with its evaluation from when it is made until the pass has ended. -/
theorem constructed_frozen_cat : speakingTree.edit.finish ⟨13⟩ = .ok speakingTree ∧
    ∃ n state, Unfolds (.ofTree speakingTree .default) .first n state ∧
      (state n).isFinished = true ∧ ∃ i ≤ n, ∃ f below, (state i).frames = f :: below ∧
        f.isDone = true ∧ f.kind = .structureDef ∧ ∃ object : Instance Value,
          object.evaluation = f.evaluation ∧ ∀ j, i ≤ j → j ≤ n →
            ((state j).evaluations.find? object.evaluation).map (fun e => e.bindings) =
              some object.bindings := by
  have ht : speakingTree.edit.finish ⟨13⟩ = .ok speakingTree := rfl
  let p : Program := .ofTree speakingTree .default
  let c : Machine × Streams := Pass.run p .first 14 (start p, .empty)
  have hruns : constructs p .first c = true ∧ (Pass.run p .first 12 c).1.isFinished = true := by
    decide +kernel
  obtain ⟨m, f, below, hc, hf, hd, hk, hcs⟩ := of_constructs hruns.1 11
  have hstart : Unfolds p .first 0 fun _ => start p := ⟨rfl, nofun⟩
  obtain ⟨k, state, hu, -, hm⟩ := hstart.prolong ((run_changes 14 (start p, .empty)).tail hc)
  rw [← hm] at hcs hf
  obtain ⟨l, state', hu', hsame, hlast⟩ := hu.prolong hcs
  rw [← hsame _ (Nat.le_refl _)] at hf
  obtain ⟨-, -, -, hfrozen⟩ := constructed_frozen ht hu'
  obtain ⟨object, -, hid, -, hagrees⟩ := hfrozen _ (Nat.le_add_right _ _) f below hf hd hk
  refine ⟨ht, _, state', hu', ?_, _, Nat.le_add_right _ _, f, below, hf, hd, hk, object, hid,
    hagrees⟩
  rw [hlast]
  exact hruns.2

end Machine
end ReactiveLang
