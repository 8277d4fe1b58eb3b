import ReactiveLang.Proofs.Eval.Discipline
import ReactiveLang.Proofs.Session.Completing
import ReactiveLang.Proofs.Session.Isolation

/-!
# Stack discipline in sessions

What passes start with comes from the passes before them, so it is about nodes that the root reaches
(`Host.after_inTree`). Every machine that a session can show is therefore in the code of the program
(`machineAt_inside`), and its next step is one that the stacks of values are ready for.
-/

namespace ReactiveLang

open Machine

/-- The frame of a program before its first step. -/
def Frame.ofProgram (p : Program) : Frame := ⟨.program, p.code.ofNode p.tree.root, 0, [], ⟨0⟩⟩

theorem Frame.ofProgram_runs {p : Program} (hcode : p.code = Code.ofTree p.tree) :
    (Frame.ofProgram p).Runs (p.tree.code p.tree.root) := by
  have hsteps : (Frame.ofProgram p).steps.toList = p.tree.code p.tree.root := by
    show (p.code.ofNode p.tree.root).toList = _
    rw [hcode, Code.ofNode_ofTree]
  unfold Frame.Runs
  rw [hsteps]
  exact List.prefix_refl _

namespace Session

variable {s s' : Session}

/-! ## What passes start with -/

/-- What the passes have started with is about nodes that the root reaches. -/
def InTree (s : Session) : Prop :=
  ∀ k < s.passes.size, (s.record k).pass.Holds (Handle.InTree s.program.tree)

/-- The program is that of a finished tree. -/
structure Finished (s : Session) : Prop where
  wellFormed : s.program.tree.WellFormed
  code : s.program.code = Code.ofTree s.program.tree

section
variable (h : s.Sound) (hf : s.Finished)
include h hf

theorem Sound.ready (hin : s.InTree) {place : Nat} (hp : place < s.passes.size) :
    Ready (s.world place) :=
  ⟨hf.wellFormed, hf.code, hin place hp, h.regular.holds⟩

/-- Every machine of a pass is in the code of the program, or finished. -/
theorem Sound.machineAt_inside {k : Nat} (hk : k < s.passes.size)
    (hp : (s.record k).pass.Holds (Handle.InTree s.program.tree)) {i : Nat} (hi : i ≤ s.length k) :
    (s.machineAt k i).InTree s.program.tree ∧ ((s.machineAt k i).frames = [] ∨
      Inside s.program.tree s.program.tree.root (.ofProgram s.program) []
        (s.machineAt k i).frames) := by
  have hw : Ready (s.world k) := ⟨hf.wellFormed, hf.code, hp, h.regular.holds⟩
  have hruns := Frame.ofProgram_runs hf.code
  induction i with
  | zero => exact ⟨inTree_start _, .inr (.enter _ _ _ _)⟩
  | succ i ih =>
    obtain ⟨hin, hinside⟩ := ih (Nat.le_of_succ_le hi)
    obtain ⟨st, -, hstep⟩ := (h.passes k hk).retraces i hi
    have hinside : Inside s.program.tree s.program.tree.root (.ofProgram s.program) []
        (s.machineAt k i).frames :=
      hinside.resolve_left (frames_ne_nil_of_next? (step_cases hstep).1)
    obtain ⟨⟨hin', -⟩, hgoes⟩ := Inside.goes hw ⟨0, .root⟩ hruns hin hinside hstep
    refine ⟨hin', ?_⟩
    cases hgoes with
    | failed frames => exact .inl frames
    | inside frames => exact .inr frames
    | left leaves =>
      obtain ⟨m1, v, hm1, heq⟩ := leaves
      refine .inl ?_
      rw [show s.machineAt k (i + 1) = _ from heq]
      refine settle_of_last hm1 (decide_eq_true ?_)
      have hsize : (s.program.code.ofNode s.program.tree.root).size =
          0 + (s.program.tree.code s.program.tree.root).length := by
        rw [hf.code, Code.ofNode_ofTree, List.size_toArray, Nat.zero_add]
      exact Nat.le_of_eq hsize

/-- The stacks of values are ready for the next step of every machine that the session can show. -/
theorem Sound.disciplined (hs : s.InTree) {k i : Nat} {replaying : Bool} {st : Step}
    (hk : k < s.passes.size) (hi : i ≤ s.length k) (hn : (s.machineAt k i).next? = some st) :
    ∃ g below, (s.machineAt k i).Disciplined
      ⟨s.program, (s.record k).pass, s.streams, replaying⟩ st g below := by
  obtain ⟨-, hinside⟩ := h.machineAt_inside hf hk (hs k hk) hi
  have hw : Ready ⟨s.program, (s.record k).pass, s.streams, replaying⟩ :=
    ⟨hf.wellFormed, hf.code, hs k hk, h.regular.holds⟩
  exact Inside.disciplined hw ⟨0, .root⟩ (Frame.ofProgram_runs hf.code)
    (hinside.resolve_left (frames_ne_nil_of_next? hn)) hn

/-- The next pass starts with values that the newest one has left. -/
theorem Sound.nextPass_inTree (hs : s.InTree) (he : s.AtEnd) :
    s.nextPass.Holds (Handle.InTree s.program.tree) := by
  obtain ⟨hin, -⟩ := h.machineAt_inside hf h.newest_lt (hs _ h.newest_lt) (Nat.le_refl _)
  rw [← h.atEnd_machine he] at hin
  exact ⟨hin.holds.memo, hin.holds.reactions⟩

end

/-- No pass is new. -/
theorem Grows.inTree (g : Grows s s') (hs : s.InTree) (hsize : s'.passes.size = s.passes.size) :
    s'.InTree := by
  intro k hk
  rw [hsize] at hk
  rw [(g.record k hk).2, g.program]
  exact hs k hk

/-- One pass is new. -/
theorem InTree.beginPass (hs : s.InTree) {pass : Pass}
    (hp : pass.Holds (Handle.InTree s.program.tree)) : (s.beginPass pass).InTree := by
  intro k hk
  rw [s.beginPass_size] at hk
  rcases Nat.lt_succ_iff_lt_or_eq.1 hk with hlt | rfl
  · have hrec : (s.beginPass pass).record k = s.record k := by
      simp [Session.record, Session.beginPass, Array.getElem?_push_lt hlt,
        Array.getElem?_eq_getElem hlt]
    rw [hrec]
    exact hs k hlt
  · rw [s.beginPass_record]
    exact hp

theorem inTree_ofProgram (p : Program) (notices : Option (List Notice)) :
    ({ ofProgram p with notices } : Session).InTree := by
  intro k hk
  obtain rfl : k = 0 := Nat.lt_one_iff.1 hk
  exact ⟨nofun, nofun⟩

theorem Host.evaluate_inTree (h : s.Host) (hs : s.InTree) : s.evaluate.2.InTree :=
  (h.sound.grows_evaluate (.inl h.begun)).inTree hs (h.sound.evaluate (.inl h.begun)).size

theorem announce_passes (s : Session) (r : Reaction) : (s.announce r).passes = s.passes := rfl

theorem Host.react_inTree (h : s.Host) (hf : s.Finished) (hs : s.InTree) : s.react.2.InTree := by
  have hrun := h.sound.evaluate (.inl h.begun)
  have hprogram : s.evaluate.2.Finished := by
    constructor <;> rw [hrun.program]
    · exact hf.wellFormed
    · exact hf.code
  have hlast := h.evaluate_inTree hs
  have hfollowed : s.followed.InTree :=
    hlast.beginPass (hrun.sound.nextPass_inTree hprogram hlast hrun.atEnd)
  obtain ⟨hsound, he⟩ := h.sound.followed h.begun
  refine h.followed_grows.inTree hfollowed ?_
  rw [react_eq, announce_passes]
  exact (hsound.evaluate (.inr he)).size

theorem Host.respond_inTree (h : s.Host) (hf : s.Finished) (hs : s.InTree) (command : Command) :
    (s.respond command).2.InTree := by
  cases hb : command.beginsPass with
  | true =>
    cases command with
    | react => exact h.react_inTree hf hs
    | restart => exact h.renewed.evaluate_inTree (inTree_ofProgram _ _)
    | _ => cases hb
  | false =>
    have hne : command ≠ .restart := by
      rintro rfl
      cases hb
    refine (h.grows_respond hne).inTree hs ?_
    have h1 := h.sound.nonempty
    have h2 := (h.respond command).sound.nonempty
    have hnewest := h.respond_newest hb
    unfold newest at hnewest
    omega

theorem Host.after_inTree (h : s.Host) (hf : s.Finished) (hs : s.InTree) (commands : List Command) :
    (s.after commands).InTree := by
  induction commands generalizing s with
  | nil => exact hs
  | cons command rest ih =>
    refine ih (h.respond command) ?_ (h.respond_inTree hf hs command)
    constructor <;> rw [h.respond_program command]
    · exact hf.wellFormed
    · exact hf.code

/-! ## From the start of a program -/

/-- What commands make of a program that has been started. -/
theorem start_after {d : Draft} {root : NodeId} {t : Tree} {config : Config} {s : Session}
    (ht : d.finish root = .ok t) (hs : Session.start t config = .ok s) (commands : List Command) :
    let now := s.after commands
    now.Sound ∧ now.Finished ∧ now.InTree ∧ now.program = Program.ofTree t config := by
  have hstart := host_start ht hs
  obtain ⟨-, -, rfl⟩ := start_cases hs
  have hf : (ofProgram (Program.ofTree t config)).Finished := ⟨Draft.finish_wellFormed ht, rfl⟩
  have hprogram := hstart.after_program commands
  refine ⟨(hstart.after commands).sound, ?_,
    hstart.after_inTree hf (inTree_ofProgram _ none) commands, hprogram⟩
  constructor <;> rw [hprogram]
  · exact hf.wellFormed
  · exact hf.code

/-- Code is stack-disciplined. Wherever control enters the code of a node, with any values of the
tree, it stays in the code, each step takes values that are there and goes on in the code of its
node, until a failure ends the pass or control leaves the code behind the node's finish with one
value more. And whatever a host does, so does the next step of every machine that its session can
show, be it taken for the first time or again. -/
theorem stack_disciplined {d : Draft} {root : NodeId} {t : Tree} (ht : d.finish root = .ok t)
    (config : Config) :
    (∀ (pass : Pass) (node : NodeId) (f : Frame) (rest : List Frame) (c : Machine × Streams),
      pass.Holds (Handle.InTree t) → t.Reaches node → c.1.InTree t →
        c.2.Holds (Handle.InTree t) → c.1.frames = f :: rest → f.Runs (t.code node) →
        Pass.LeavesCode (Program.ofTree t config) pass node f rest c) ∧
      ∀ s, Session.start t config = .ok s → ∀ commands : List Command,
        let now := s.after commands
        now.machine = now.machineAt now.cursor now.machine.index ∧
          ∀ place offset replaying st, place < now.passes.size → offset ≤ now.length place →
            (now.machineAt place offset).next? = some st →
            ∃ g below, (now.machineAt place offset).Disciplined
              ⟨now.program, (now.record place).pass, now.streams, replaying⟩ st g below := by
  have hw := Draft.finish_wellFormed ht
  refine ⟨fun pass node f rest c hp hnode hin hstreams hf hruns => ?_, fun s hs commands => ?_⟩
  · exact Pass.run_leavesCode ⟨hw, rfl, hp⟩ hnode hruns hin hstreams hf
  · obtain ⟨hnow, hf, hin, -⟩ := start_after ht hs commands
    exact ⟨hnow.machine, fun place offset replaying st hp ho hn =>
      hnow.disciplined hf hin hp ho hn⟩

/-- The clock's program as a whole, and a machine on the way of its second pass. -/
theorem stack_disciplined_clock : clockTree.edit.finish ⟨3⟩ = .ok clockTree ∧
    Pass.LeavesCode (Program.ofTree clockTree .default) .first clockTree.root
      (.ofProgram (Program.ofTree clockTree .default)) []
      (Pass.begun (Program.ofTree clockTree .default) .empty) ∧
    ∃ s, Session.start clockTree .default = .ok s ∧
      let now := s.after [.evaluate, .tick 40, .react]
      now.machine = now.machineAt now.cursor now.machine.index := by
  have hdisciplined := stack_disciplined finish_clock .default
  refine ⟨finish_clock, ?_, _, start_clock,
    (hdisciplined.2 _ start_clock [.evaluate, .tick 40, .react]).1⟩
  exact hdisciplined.1 .first clockTree.root _ [] _ ⟨nofun, nofun⟩ ⟨0, .root⟩
    (inTree_start (Program.ofTree clockTree .default))
    Streams.regular_empty.holds rfl (Frame.ofProgram_runs rfl)

end Session
end ReactiveLang
