import ReactiveLang.Proofs.Eval.Remembering
import ReactiveLang.Proofs.Session.Changes
import ReactiveLang.Proofs.Session.Reactions

/-!
# Values that are reused

A pass may use the value that a node of the program's own has given in the pass before, as long as
nothing that the node depends on has changed. So a value is handed on from pass to pass while
control comes to the node in each of them (`values_handed_on`). A pass in which a value took the
place of a node around it does not come to the node, and forgets its value (`forgotten_by_list`).
-/

namespace ReactiveLang.Session

open Machine

variable {s : Session}

/-- The pass has evaluated the node, or reused a value of it, and this was the value. -/
def Gave (s : Session) (place : Nat) (node : NodeId) (v : Value) : Prop :=
  ∃ f rest first last, last ≤ s.length place ∧
    Machine.Evaluates (s.world place) (s.machineAt place) node f rest first last v

/-- Control has come to the start of the node in the pass, within the limit on steps. -/
def Started (s : Session) (place : Nat) (node : NodeId) : Prop :=
  ∃ i < s.length place, i < s.program.config.maxSteps ∧
    (s.machineAt place i).next? = some (.start node)

/-- What the node depends on is neither a reaction nor a test of a change, and no call of a stream
that has changed for the pass. -/
def Unchanged (s : Session) (place : Nat) (node : NodeId) : Prop :=
  ∀ dependency ∈ s.program.analysis.streamDependencies node,
    isPassDependent s.program.tree dependency = false ∧
      ∀ id ∈ (s.record place).pass.changed, ∀ x, s.streams.find? id = some x →
        x.creator ≠ dependency

/-! ## One pass -/

section
variable (h : s.Sound) (hf : s.Finished) (hin : s.InTree)
include h hf hin

omit h hin in
theorem Finished.based : Based s.program.tree (Machine.start s.program) []
    (.ofProgram s.program) := by
  refine ⟨rfl, ?_, nofun⟩
  show (s.program.code.ofNode s.program.tree.root).toList = _
  rw [hf.code, Code.ofNode_ofTree]

section
variable {place : Nat} (hp : place < s.passes.size) {node : NodeId}
  (hm : s.program.analysis.isMemoizable node = true) {v : Value}
include hp hm

/-- What a node has given, the pass has remembered at its end. -/
theorem Sound.remembers (hnodup : (s.program.tree.code s.program.tree.root).Nodup)
    (hv : v.isPortable = true) (hg : s.Gave place node v) :
    (s.machineAt place (s.length place)).memo.lookup node = some v := by
  obtain ⟨f, rest, first, last, hlast, he⟩ := hg
  exact (h.passes place hp).retraces.remembers (h.ready hf hin hp)
    (fun i hi => (h.machineAt_inside hf hp (hin place hp) hi).1) hf.based hnodup he hlast hm hv

/-- A node starts with the value that the pass was handed, if nothing that it depends on has
changed. -/
theorem Sound.reuses (a : s.Accounted) (hlater : 0 < place)
    (hmemo : (s.record place).pass.memo.lookup node = some v) (hu : s.Unchanged place node)
    {first : Nat} (hfirst : first < s.length place) (hlimit : first < s.program.config.maxSteps)
    (hnext : (s.machineAt place first).next? = some (.start node)) :
    ∃ f, Machine.Evaluates (s.world place) (s.machineAt place) node f [] first (first + 1) v := by
  have haccounted := a.passes place hlater (by unfold newest; omega)
  have hinside := fun i (hi : i ≤ s.length place) =>
    h.machineAt_inside hf hp (hin place hp) hi
  obtain ⟨f, rest, hframes, hstarts⟩ := frames_of_next? hnext
  have hroot := (hinside first (Nat.le_of_lt hfirst)).2.resolve_left (frames_ne_nil_of_next? hnext)
  rw [hframes] at hroot
  obtain ⟨hreach, hruns⟩ :=
    hroot.starts hf.wellFormed ⟨0, .root⟩ (Frame.ofProgram_runs hf.code) hstarts
  have hmemoized : memoized? (s.world place) node = some v := by
    refine memoized?_eq_some_iff.2 ⟨hmemo, hm, fun dependency hd => ⟨fun hc => ?_, (hu _ hd).1⟩⟩
    obtain ⟨id, hid, x, hx, hcreator⟩ := (haccounted.creators dependency).1 hc
    exact (hu dependency hd).2 id hid x hx hcreator
  have hindex := h.index_machineAt hp (Nat.le_of_lt hfirst)
  obtain ⟨rfl, he⟩ := (h.passes place hp).retraces.reuses (h.ready hf hin hp)
    (fun i hi => (hinside i hi).1) hf.based hfirst
    (Nat.lt_of_le_of_lt (Nat.le_of_eq hindex) hlimit) hreach hruns hframes hmemoized
  exact ⟨f, he⟩

end
end

/-- A value is remembered to the end of each pass that comes to the node. -/
theorem Handed.remembered (h : s.Sound) (hf : s.Finished) (hin : s.InTree) (a : s.Accounted)
    (hh : s.Handed) {node : NodeId} (hm : s.program.analysis.isMemoizable node = true) {v : Value}
    (hnodup : (s.program.tree.code s.program.tree.root).Nodup) (hv : v.isPortable = true)
    {k n : Nat} (hp : k + n < s.passes.size) (hg : s.Gave k node v)
    (hstarted : ∀ j, k < j → j ≤ k + n → s.Started j node)
    (hunchanged : ∀ j, k < j → j ≤ k + n → s.Unchanged j node) :
    (s.machineAt (k + n) (s.length (k + n))).memo.lookup node = some v := by
  induction n with
  | zero => exact h.remembers hf hin hp hm hnodup hv hg
  | succ n ih =>
    have hbefore := ih (Nat.lt_of_succ_lt hp) (fun j h1 h2 => hstarted j h1 (Nat.le_succ_of_le h2))
      fun j h1 h2 => hunchanged j h1 (Nat.le_succ_of_le h2)
    rw [← (hh.later (k + n) (by unfold newest; omega)).memo] at hbefore
    obtain ⟨i, hi, hlimit, hnext⟩ := hstarted (k + n + 1) (by omega) (Nat.le_refl _)
    obtain ⟨f, he⟩ := h.reuses hf hin hp hm a (Nat.succ_pos _) hbefore
      (hunchanged (k + n + 1) (by omega) (Nat.le_refl _)) hi hlimit hnext
    exact h.remembers hf hin hp hm hnodup hv ⟨f, [], i, i + 1, hi, he⟩

/-- A node of the program's own that gave a portable value in an earlier pass is not run again: its
start leads behind its finish with that value, if nothing that it depends on has changed since, and
control came to the node in each pass between. -/
theorem values_handed_on {d : Draft} {root : NodeId} {t : Tree} {config : Config} {s : Session}
    (ht : d.finish root = .ok t) (hs : Session.start t config = .ok s) (commands : List Command) :
    let now := s.after commands
    ∀ k place first node v, k < place → place < now.passes.size →
      now.program.analysis.isMemoizable node = true → now.Gave k node v → v.isPortable = true →
      (∀ j, k < j → j ≤ place → now.Unchanged j node) →
      (∀ j, k < j → j < place → now.Started j node) →
      first < now.length place → first < config.maxSteps →
      (now.machineAt place first).next? = some (.start node) →
      ∃ f, Machine.Evaluates (now.world place) (now.machineAt place) node f [] first (first + 1)
        v := by
  intro now k place first node v hk hp hm hg hv hunchanged hstarted hfirst hlimit hnext
  have hhanded : now.Handed := handed_after ht hs commands
  have haccounted : now.Accounted :=
    kept_accounted.started ht hs (accounted_ofProgram _ none) commands
  obtain ⟨hsound, hf, hin, hprogram⟩ := start_after ht hs commands
  have htree : now.program.tree = t := congrArg Program.tree hprogram
  have hconfig : now.program.config = config := congrArg Program.config hprogram
  have hnodup : (now.program.tree.code now.program.tree.root).Nodup := by
    refine hf.wellFormed.code_nodup (fun node hr => ?_) ⟨0, .root⟩
    rw [htree] at hr ⊢
    exact Draft.finish_nodup ht hr
  obtain ⟨n, rfl⟩ := Nat.exists_eq_add_of_lt hk
  have hbefore := hhanded.remembered hsound hf hin haccounted hm hnodup hv (Nat.lt_of_succ_lt hp) hg
    (fun j h1 h2 => hstarted j h1 (Nat.lt_succ_of_le h2))
    fun j h1 h2 => hunchanged j h1 (Nat.le_succ_of_le h2)
  rw [← (hhanded.later (k + n) (by unfold newest; omega)).memo] at hbefore
  exact hsound.reuses hf hin hp hm haccounted (Nat.succ_pos _) hbefore
    (hunchanged _ (by omega) (Nat.le_refl _)) hfirst (by rw [hconfig]; exact hlimit) hnext

/-! ## A node in a value that is reused -/

/-- The tree of a program with a list of a negation and the clock. -/
def listTree : Tree :=
  ⟨#[⟨.boolean true, .zero⟩, ⟨.unary .not ⟨0⟩, .zero⟩, ⟨.reference "Time", .zero⟩,
    ⟨.call ⟨2⟩ [], .zero⟩, ⟨.list [⟨1⟩, ⟨3⟩], .zero⟩, ⟨.block [⟨4⟩], .zero⟩, ⟨.program ⟨5⟩, .zero⟩],
    #[some ⟨1⟩, some ⟨4⟩, some ⟨3⟩, some ⟨4⟩, some ⟨5⟩, some ⟨6⟩, none], ⟨6⟩⟩

theorem finish_list : listTree.edit.finish ⟨6⟩ = .ok listTree := rfl

theorem start_list : Session.start listTree .default =
    .ok (ofProgram (Program.ofTree listTree .default)) :=
  start_eq (by decide) (by decide +kernel)

/-- The values, if they are all booleans. -/
def booleans? : List Value → Option (List Bool)
  | [] => some []
  | .boolean b :: rest => (booleans? rest).map fun bs => b :: bs
  | _ => none

theorem of_booleans? {values : List Value} {bs : List Bool} (h : booleans? values = some bs) :
    values = bs.map Value.boolean := by
  induction values generalizing bs with
  | nil => cases h; rfl
  | cons v rest ih =>
    cases v with
    | boolean b =>
      obtain ⟨bs', hbs, rfl⟩ := Option.map_eq_some_iff.1 h
      rw [ih hbs]
      rfl
    | _ => cases h

/-- The machine has the program's frame only, so many steps on, with these booleans. -/
def isAt (p : Program) (m : Machine) (position : Nat) (bs : List Bool) : Bool :=
  match m.frames with
  | [⟨kind, steps, place, values, evaluation⟩] =>
    kind = .program ∧ steps = p.code.ofNode p.tree.root ∧ place = position ∧
      booleans? values = some bs ∧ evaluation = ⟨0⟩
  | _ => false

theorem frames_of_isAt {p : Program} {m : Machine} {position : Nat} {bs : List Bool}
    (h : isAt p m position bs = true) :
    m.frames = [(Frame.ofProgram p).passed position (bs.map Value.boolean)] := by
  unfold isAt at h
  split at h
  · rename_i hf
    obtain ⟨rfl, rfl, rfl, hvalues, rfl⟩ := of_decide_eq_true h
    rw [hf, of_booleans? hvalues, Frame.passed, Frame.ofProgram, List.append_nil, Nat.zero_add]
  · cases h

section
variable {now : Session} (hp : now.program = Program.ofTree listTree .default)
include hp

/-- Steps of a first pass that evaluate the negation. -/
theorem gave_negation (hlength : 7 ≤ now.length 0)
    (hat : (isAt now.program (now.machineAt 0 3) 3 [] &&
      isAt now.program (now.machineAt 0 4) 4 [] && isAt now.program (now.machineAt 0 5) 5 [] &&
      isAt now.program (now.machineAt 0 6) 6 [true] &&
      isAt now.program (now.machineAt 0 7) 7 [false]) = true) :
    now.Gave 0 ⟨1⟩ (.boolean false) := by
  simp only [Bool.and_eq_true] at hat
  obtain ⟨⟨⟨⟨h3, h4⟩, h5⟩, h6⟩, h7⟩ := hat
  have htree : now.program.tree = listTree := congrArg Program.tree hp
  have hcode : now.program.tree.code ⟨1⟩ <+:
        (now.program.code.ofNode now.program.tree.root).toList.drop 3 ∧
      (now.program.tree.code ⟨1⟩).length = 4 := by
    rw [hp]
    decide +kernel
  have hpart : (listTree.parts ⟨1⟩)[0]? = some (.child ⟨0⟩, 0) := rfl
  let f : Frame := (Frame.ofProgram now.program).passed 3 []
  have hinside : ∀ (n : Nat) (values : List Value), listTree.Stands ⟨1⟩ n values.length →
      Inside now.program.tree ⟨1⟩ f [] [(Frame.ofProgram now.program).passed (3 + n) values] := by
    intro n values hs
    rw [← htree] at hs
    have h : Inside now.program.tree ⟨1⟩ f [] [f.passed n values] := .place hs
    rwa [Frame.passed_passed, List.append_nil] at h
  refine ⟨f, [], 3, 7, hlength, hcode.1, frames_of_isAt h3, by decide, fun i h1 h2 => ?_, ?_⟩
  · obtain rfl | rfl | rfl | rfl : i = 3 ∨ i = 4 ∨ i = 5 ∨ i = 6 := by omega
    · rw [frames_of_isAt h3]
      exact hinside 0 [] (.start ⟨1⟩)
    · rw [frames_of_isAt h4]
      exact hinside 1 [] (.child hpart (.start ⟨0⟩))
    · rw [frames_of_isAt h5]
      exact hinside 2 [] (.child hpart (.finish ⟨0⟩))
    · rw [frames_of_isAt h6]
      exact hinside 3 [.boolean true] (.finish ⟨1⟩)
  · show _ = [f.passed (now.program.tree.code ⟨1⟩).length [.boolean false]]
    rw [frames_of_isAt h7, hcode.2, Frame.passed_passed]
    rfl

/-- The negation may be reused in every pass. -/
theorem negation_unchanged : now.program.analysis.isMemoizable ⟨1⟩ = true ∧
    ∀ j, now.Unchanged j ⟨1⟩ := by
  have hnode : now.program.analysis.isMemoizable ⟨1⟩ = true ∧
      now.program.analysis.streamDependencies ⟨1⟩ = [] := by
    rw [hp]
    decide +kernel
  refine ⟨hnode.1, fun j dependency hd => ?_⟩
  rw [hnode.2] at hd
  cases hd

end

/-- The negation does not depend on the clock, so two reactions to the clock, one after the other,
take its value: the second one from the first, where control came to the negation. -/
theorem values_handed_on_list : listTree.edit.finish ⟨6⟩ = .ok listTree ∧
    ∃ s, Session.start listTree .default = .ok s ∧
      let now := s.after [.evaluate, .tick 0, .react, .tick 100, .react]
      2 < now.passes.size ∧ now.program.analysis.isMemoizable ⟨1⟩ = true ∧
        now.Gave 0 ⟨1⟩ (.boolean false) ∧ (∀ j, 0 < j → j ≤ 2 → now.Unchanged j ⟨1⟩) ∧
        now.Started 1 ⟨1⟩ ∧ 3 < now.length 2 ∧
        (now.machineAt 2 3).next? = some (.start ⟨1⟩) ∧
        ∃ f, Machine.Evaluates (now.world 2) (now.machineAt 2) ⟨1⟩ f [] 3 4 (.boolean false) := by
  let commands : List Command := [.evaluate, .tick 0, .react, .tick 100, .react]
  let now := (ofProgram (Program.ofTree listTree .default)).after commands
  have hp : now.program = Program.ofTree listTree .default :=
    (start_after finish_list start_list _).2.2.2
  have hplace : 2 < now.passes.size ∧ 7 ≤ now.length 0 ∧ 3 < now.length 1 ∧ 3 < now.length 2 := by
    decide +kernel
  have hgave : now.Gave 0 ⟨1⟩ (.boolean false) := gave_negation hp hplace.2.1 (by decide +kernel)
  obtain ⟨hnode, hunchanged⟩ := negation_unchanged hp
  have hstarted : now.Started 1 ⟨1⟩ :=
    ⟨3, hplace.2.2.1, by rw [hp]; decide, by decide +kernel⟩
  have hnext : (now.machineAt 2 3).next? = some (.start ⟨1⟩) := by decide +kernel
  refine ⟨finish_list, _, start_list, hplace.1, hnode, hgave, fun j _ _ => hunchanged j, hstarted,
    hplace.2.2.2, hnext, ?_⟩
  refine values_handed_on finish_list start_list commands 0 2 3 ⟨1⟩ (.boolean false) Nat.two_pos
    hplace.1 hnode hgave rfl (fun j _ _ => hunchanged j) (fun j h1 h2 => ?_) hplace.2.2.2 (by decide)
    hnext
  obtain rfl : j = 1 := by omega
  exact hstarted

/-- The second pass reuses the list, since nothing has changed, and does not come to the negation in
it. Then the clock changes, so the third pass makes the list again, and the negation too: it goes on
with the first step of its operand, though it had its value in the first pass. -/
theorem forgotten_by_list : listTree.edit.finish ⟨6⟩ = .ok listTree ∧
    ∃ s, Session.start listTree .default = .ok s ∧
      let now := s.after [.evaluate, .react, .tick 0, .react]
      2 < now.passes.size ∧ now.program.analysis.isMemoizable ⟨1⟩ = true ∧
        now.Gave 0 ⟨1⟩ (.boolean false) ∧ (Value.boolean false).isPortable = true ∧
        (∀ j, 0 < j → j ≤ 2 → now.Unchanged j ⟨1⟩) ∧
        ((now.machineAt 1 2).next? = some (.start ⟨4⟩) ∧
          (now.machineAt 1 3).next? = some (.finish ⟨5⟩)) ∧
        (3 < now.length 2 ∧ 3 < Config.default.maxSteps ∧
          (now.machineAt 2 3).next? = some (.start ⟨1⟩)) ∧
        (now.machineAt 2 4).next? = some (.start ⟨0⟩) ∧
        ¬ ∃ f v, Machine.Evaluates (now.world 2) (now.machineAt 2) ⟨1⟩ f [] 3 4 v := by
  let now :=
    (ofProgram (Program.ofTree listTree .default)).after [.evaluate, .react, .tick 0, .react]
  have hp : now.program = Program.ofTree listTree .default :=
    (start_after finish_list start_list _).2.2.2
  have hplace : 2 < now.passes.size ∧ 7 ≤ now.length 0 ∧ 3 < now.length 2 := by decide +kernel
  have hgave : now.Gave 0 ⟨1⟩ (.boolean false) := gave_negation hp hplace.2.1 (by decide +kernel)
  have hreused : (now.machineAt 1 2).next? = some (.start ⟨4⟩) ∧
      (now.machineAt 1 3).next? = some (.finish ⟨5⟩) := by
    decide +kernel
  have hagain : (now.machineAt 2 3).next? = some (.start ⟨1⟩) ∧
      (now.machineAt 2 4).next? = some (.start ⟨0⟩) ∧
        isAt now.program (now.machineAt 2 4) 4 [] := by
    decide +kernel
  obtain ⟨hnode, hunchanged⟩ := negation_unchanged hp
  refine ⟨finish_list, _, start_list, hplace.1, hnode, hgave, rfl, fun j _ _ => hunchanged j,
    hreused, ⟨hplace.2.2, by decide, hagain.1⟩, hagain.2.1, ?_⟩
  rintro ⟨f, v, he⟩
  -- no value is there yet
  have hframes := (frames_of_isAt hagain.2.2).symm.trans he.leaves
  exact absurd (congrArg Frame.values (List.cons.inj hframes).1) nofun

end ReactiveLang.Session
