import ReactiveLang.Proofs.Eval.Reacting
import ReactiveLang.Proofs.Session.Discipline
import ReactiveLang.Proofs.Session.Partition
import ReactiveLang.Proofs.Session.Turns

/-!
# Reactions in sessions

A pass is handed the values that reactions have yielded in the pass before, and those that it has
remembered of other nodes (`Handed`), but none of earlier passes. So a reaction goes on from its
value if it has yielded one in the pass before, else it begins anew (`reactions_handed_on`),
although it may have yielded one earlier (`forgotten_by_branch`).
-/

namespace ReactiveLang.Session

open Machine

variable {s s' : Session}

/-! ## What passes are handed -/

/-- The pass starts with what the machine has kept: the values of its reactions, and those that it
has remembered. -/
structure Takes (pass : Pass) (m : Machine) : Prop where
  reactions : pass.reactions = m.reactions
  memo : pass.memo = m.memo

/-- The first pass starts with nothing, and each later one with the values that the machine of the
pass before has kept. -/
structure Handed (s : Session) : Prop where
  first : (s.record 0).pass = .first
  later : ∀ k < s.newest, Takes (s.record (k + 1)).pass (s.machineAt k (s.length k))

section
variable (h : s.Sound) (h' : s'.Sound) (g : Grows s s')
include h h' g

/-- What a finished pass has kept, it keeps. -/
theorem Grows.kept_eq {k : Nat} (hk : k < s.passes.size)
    (hf : (s.machineAt k (s.length k)).isFinished = true) :
    s'.machineAt k (s'.length k) = s.machineAt k (s.length k) := by
  rw [g.length_eq h h' hk hf, g.machineAt h hk (Nat.le_refl _)]

/-- The passes that were there are handed what they were handed before. -/
theorem Handed.grows (a : s.Handed) : (s'.record 0).pass = .first ∧ ∀ k < s.newest,
    Takes (s'.record (k + 1)).pass (s'.machineAt k (s'.length k)) := by
  refine ⟨by rw [(g.record 0 h.nonempty).2, a.first], fun k hk => ?_⟩
  have hlt : k + 1 < s.passes.size := Nat.lt_of_le_of_lt hk h.newest_lt
  have hpass := h.passes k (Nat.lt_of_succ_lt hlt)
  rw [(g.record _ hlt).2, g.kept_eq h h' (Nat.lt_of_succ_lt hlt) (hpass.finished hk)]
  exact a.later k hk

theorem Handed.same (a : s.Handed) (hsize : s'.passes.size = s.passes.size) : s'.Handed := by
  obtain ⟨hfirst, hlater⟩ := a.grows h h' g
  refine ⟨hfirst, fun k hk => hlater k ?_⟩
  rwa [newest, hsize] at hk

end

/-- A pass that begins is handed what the newest one has kept. -/
theorem Handed.began (a : s.Handed) (h : s.Sound) (he : s.AtEnd)
    (hf : s.machine.isFinished = true) : (s.beginPass s.nextPass).Handed := by
  have g := h.grows_beginPass s.nextPass
  have h' := (h.begin he hf).1
  obtain ⟨hfirst, hlater⟩ := a.grows h h' g
  have hsize : s.passes.size = s.newest + 1 := by
    have := h.nonempty
    unfold newest
    omega
  refine ⟨hfirst, fun k hk => ?_⟩
  rw [s.beginPass_newest, hsize] at hk
  rcases Nat.lt_or_eq_of_le (Nat.le_of_lt_succ hk) with hlt | rfl
  · exact hlater k hlt
  · have hend := h.atEnd_machine he
    rw [g.kept_eq h h' h.newest_lt (hend ▸ hf), ← hend, ← hsize, s.beginPass_record]
    exact ⟨rfl, rfl⟩

theorem handed_ofProgram (p : Program) (notices : Option (List Notice)) :
    ({ ofProgram p with notices } : Session).Handed :=
  ⟨rfl, fun _ hk => absurd hk (Nat.not_lt_zero _)⟩

theorem kept_handed : Kept Handed where
  turn := by
    intro s s' h a t
    have g := t.grows h
    have h' := t.sound h
    cases t with
    | placed => exact a.same h h' g rfl
    | stepped => exact a.same h h' g (s.stepped_size _ _ _)
    | began atEnd finished => exact a.began h atEnd finished
    | told => exact a.same h h' g rfl
  tick := fun h a now => a.same h (h.tick now) (h.grows_tick now) rfl
  renewed := fun _ _ => handed_ofProgram _ _

/-- From the start of a program, whatever the commands. -/
theorem handed_after {d : Draft} {root : NodeId} {t : Tree} {config : Config}
    (ht : d.finish root = .ok t) (hs : Session.start t config = .ok s) (commands : List Command) :
    (s.after commands).Handed :=
  kept_handed.started ht hs (handed_ofProgram _ none) commands

/-! ## What reactions go on from -/

/-- The reaction has yielded a value in the pass. -/
def HasYielded (s : Session) (place : Nat) (node : NodeId) : Prop :=
  ∃ i < s.length place, ∃ v, (s.machineAt place i).Yields (s.world place) node v

/-- What the reaction has yielded last in the pass. -/
def LastYielded (s : Session) (place : Nat) (node : NodeId) (v : Value) : Prop :=
  Yielded (s.world place) (s.machineAt place) (s.length place) node v

/-- What the reaction has yielded last in the pass before, if anything. -/
def LeftBy (s : Session) (place : Nat) (node : NodeId) : Option Value → Prop
  | none => ∀ k, k + 1 = place → ¬ s.HasYielded k node
  | some v => ∃ k, k + 1 = place ∧ s.LastYielded k node v

/-- What the reaction has yielded last before the pass, since the program began, if anything. -/
def LeftEarlier (s : Session) (place : Nat) (node : NodeId) : Option Value → Prop
  | none => ∀ k < place, ¬ s.HasYielded k node
  | some v => ∃ k < place, s.LastYielded k node v ∧
      ∀ j, k < j → j < place → ¬ s.HasYielded j node

/-- Where a reaction has yielded a value in the pass before if in any, the last one is from there. -/
theorem LeftBy.earlier {place : Nat} {node : NodeId} {previous : Option Value}
    (h : s.LeftBy place node previous)
    (hkept : ∀ k < place, s.HasYielded k node → s.HasYielded (place - 1) node) :
    s.LeftEarlier place node previous := by
  cases previous with
  | none =>
    intro k hk hy
    exact h (place - 1) (by omega) (hkept k hk hy)
  | some v =>
    obtain ⟨k, rfl, hv⟩ := h
    exact ⟨k, Nat.lt_succ_self k, hv, fun j h1 h2 => by omega⟩

section
variable (h : s.Sound) (a : s.Handed) {place : Nat} (hp : place < s.passes.size) (node : NodeId)
include h a hp

/-- A pass is handed what the reaction has yielded last in the pass before. -/
theorem Handed.leftBy : s.LeftBy place node ((s.record place).pass.reactions.lookup node) := by
  cases place with
  | zero =>
    rw [a.first]
    exact fun k hk => absurd hk (Nat.succ_ne_zero k)
  | succ k =>
    have hlt : k < s.newest := by
      unfold newest
      omega
    have hlookup : ∀ v, (s.machineAt k (s.length k)).reactions.lookup node = some v ↔
        s.LastYielded k node v := fun v =>
      (h.passes k (Nat.lt_of_succ_lt hp)).retraces.lookup_reactions rfl (Nat.le_refl _)
    rw [(a.later k hlt).reactions]
    cases hl : (s.machineAt k (s.length k)).reactions.lookup node with
    | none =>
      rintro k' hk' ⟨i, hi, v, hy⟩
      obtain rfl : k' = k := Nat.succ.inj hk'
      obtain ⟨u, hu⟩ := exists_yielded hi hy
      rw [(hlookup u).2 hu] at hl
      cases hl
    | some v => exact ⟨k, rfl, (hlookup v).1 hl⟩

/-- What a pass is handed of a reaction is no stream. -/
theorem Handed.seen_eq {u : Value} (hu : (s.record place).pass.reactions.lookup node = some u) :
    (s.world place).seen u = u := by
  have hleft := a.leftBy h hp node
  rw [hu] at hleft
  obtain ⟨k, -, i, -, hy, -⟩ := hleft
  obtain ⟨x, rfl⟩ := World.outcome_reaction hy.outcome
  exact World.seen_seen (w := s.world k) h.regular _ x

end

/-- A reaction that has yielded a value in the pass before goes on from that: it yields its next
value if its condition holds, evaluated where the bind around it has that value, and the same value
if it does not. A reaction that has yielded none there yields its initial value. So it goes on from
the last value that it has yielded since the program began, unless it yielded one in an earlier pass
and none in the one before. -/
theorem reactions_handed_on {d : Draft} {root : NodeId} {t : Tree} {config : Config} {s : Session}
    (ht : d.finish root = .ok t) (hs : Session.start t config = .ok s) (commands : List Command) :
    let now := s.after commands
    ∀ place first node initial condition next, place < now.passes.size →
      first ≤ now.length place → t.construct node = .reaction initial condition next →
      (now.machineAt place first).next? = some (.start node) →
      ∃ previous f rest, (now.machineAt place first).frames = f :: rest ∧
        Reacts (now.world place) (now.machineAt place) (now.length place) node initial condition
          next f rest first previous ∧
        now.LeftBy place node previous ∧
        ((∀ k < place, now.HasYielded k node → now.HasYielded (place - 1) node) →
          now.LeftEarlier place node previous) := by
  intro now place first node initial condition next hp hfirst hc hnext
  have hnow : now.Handed := handed_after ht hs commands
  obtain ⟨hsound, hf, hin, hprogram⟩ := start_after ht hs commands
  have htree : now.program.tree = t := congrArg Program.tree hprogram
  rw [← htree] at hc
  have hw : Ready (now.world place) := ⟨hf.wellFormed, hf.code, hin place hp, hsound.regular.holds⟩
  have hinside := fun i (hi : i ≤ now.length place) =>
    hsound.machineAt_inside hf hp (hin place hp) hi
  obtain ⟨f, rest, hframes, hstarts⟩ := frames_of_next? hnext
  have hroot := (hinside first hfirst).2.resolve_left (frames_ne_nil_of_next? hnext)
  rw [hframes] at hroot
  obtain ⟨hreach, hruns⟩ :=
    hroot.starts hf.wellFormed ⟨0, .root⟩ (Frame.ofProgram_runs hf.code) hstarts
  have hleft := hnow.leftBy hsound hp node
  refine ⟨_, f, rest, hframes, ?_, hleft, hleft.earlier⟩
  exact (hsound.passes place hp).retraces.reacts hw hreach hruns hc (fun i hi => (hinside i hi).1)
    (fresh_start _) (fun u hu => hnow.seen_eq hsound hp node hu) hfirst hframes

/-! ## A branch that is not taken -/

/-- The tree of a program with a switch, which changes in each pass, and a conditional on it. The
other branch of the conditional is a reaction that begins with one text and then yields another. -/
def branchTree : Tree :=
  ⟨#[⟨.boolean false, .zero⟩, ⟨.boolean true, .zero⟩, ⟨.reference "toggle", .zero⟩,
    ⟨.unary .not ⟨2⟩, .zero⟩, ⟨.reaction ⟨0⟩ ⟨1⟩ ⟨3⟩, .zero⟩,
    ⟨.binding "toggle" none (some ⟨4⟩), .zero⟩, ⟨.reference "toggle", .zero⟩, ⟨.text "x", .zero⟩,
    ⟨.text "a", .zero⟩, ⟨.boolean true, .zero⟩, ⟨.text "b", .zero⟩,
    ⟨.reaction ⟨8⟩ ⟨9⟩ ⟨10⟩, .zero⟩, ⟨.conditional ⟨6⟩ ⟨7⟩ ⟨11⟩, .zero⟩,
    ⟨.block [⟨5⟩, ⟨12⟩], .zero⟩, ⟨.program ⟨13⟩, .zero⟩],
    #[some ⟨4⟩, some ⟨4⟩, some ⟨3⟩, some ⟨4⟩, some ⟨5⟩, some ⟨13⟩, some ⟨12⟩, some ⟨12⟩, some ⟨11⟩,
      some ⟨11⟩, some ⟨11⟩, some ⟨12⟩, some ⟨13⟩, some ⟨14⟩, none], ⟨14⟩⟩

theorem finish_branch : branchTree.edit.finish ⟨14⟩ = .ok branchTree := rfl

theorem start_branch : Session.start branchTree .default =
    .ok (ofProgram (Program.ofTree branchTree .default)) :=
  start_eq (by decide) (by decide +kernel)

/-- In the second pass the switch goes on from what it was in the first one. -/
theorem reactions_handed_on_branch : branchTree.edit.finish ⟨14⟩ = .ok branchTree ∧
    ∃ s, Session.start branchTree .default = .ok s ∧
      let now := s.after [.evaluate, .react]
      1 < now.passes.size ∧ 3 ≤ now.length 1 ∧
        (now.machineAt 1 3).next? = some (.start ⟨4⟩) ∧
        ∃ previous f rest, Reacts (now.world 1) (now.machineAt 1) (now.length 1) ⟨4⟩ ⟨0⟩ ⟨1⟩ ⟨3⟩
          f rest 3 previous ∧ now.LeftBy 1 ⟨4⟩ previous ∧ now.LeftEarlier 1 ⟨4⟩ previous := by
  let now := (ofProgram (Program.ofTree branchTree .default)).after [.evaluate, .react]
  have hplace : 1 < now.passes.size ∧ 3 ≤ now.length 1 := by decide +kernel
  have hnext : (now.machineAt 1 3).next? = some (.start ⟨4⟩) := by decide +kernel
  obtain ⟨previous, f, rest, -, hreacts, hleft, hearlier⟩ := reactions_handed_on finish_branch
    start_branch [.evaluate, .react] 1 3 ⟨4⟩ ⟨0⟩ ⟨1⟩ ⟨3⟩ hplace.1 hplace.2 rfl hnext
  refine ⟨finish_branch, _, start_branch, hplace.1, hplace.2, hnext, previous, f, rest, hreacts,
    hleft, hearlier fun k hk hy => ?_⟩
  obtain rfl : k = 0 := Nat.lt_one_iff.1 hk
  exact hy

/-- The branch with the second reaction is taken in the first pass and the third, and the reaction
begins anew in the third: it yields its first text again, though it has yielded that before and its
condition holds. -/
theorem forgotten_by_branch : branchTree.edit.finish ⟨14⟩ = .ok branchTree ∧
    ∃ s, Session.start branchTree .default = .ok s ∧
      let now := s.after [.evaluate, .react, .react]
      branchTree.construct ⟨11⟩ = .reaction ⟨8⟩ ⟨9⟩ ⟨10⟩ ∧
        branchTree.construct ⟨9⟩ = .boolean true ∧ branchTree.construct ⟨10⟩ = .text "b" ∧
        now.LeftEarlier 2 ⟨11⟩ (some (.text "a")) ∧
        (22 < now.length 2 ∧ (now.machineAt 2 22).Yields (now.world 2) ⟨11⟩ (.text "a")) ∧
        ∀ i < now.length 2, ¬ (now.machineAt 2 i).Yields (now.world 2) ⟨11⟩ (.text "b") := by
  let now := (ofProgram (Program.ofTree branchTree .default)).after [.evaluate, .react, .react]
  have hruns : (now.length 0 = 23 ∧ now.length 1 = 24 ∧ now.length 2 = 26) ∧
      (yieldedText? (now.world 0) (now.machineAt 0 19) ⟨11⟩ = some "a" ∧
        yieldedText? (now.world 2) (now.machineAt 2 22) ⟨11⟩ = some "a") ∧
      ∀ place < 3, ∀ i < 26, (now.machineAt place i).next? = some (.finish ⟨11⟩) →
        (place = 0 ∧ i = 19) ∨ (place = 2 ∧ i = 22) := by
    decide +kernel
  obtain ⟨⟨hfirst, hsecond, hthird⟩, ⟨hbegins, hagain⟩, hfinish⟩ := hruns
  have hyields := yields_of_yieldedText? hagain
  refine ⟨finish_branch, _, start_branch, rfl, rfl, rfl, ?_, ⟨?_, hyields⟩, fun i hi hy => ?_⟩
  · refine ⟨0, by decide, ⟨19, ?_, yields_of_yieldedText? hbegins, fun j h1 h2 u hy => ?_⟩,
      fun k h1 h2 => ?_⟩
    · show 19 < now.length 0
      rw [hfirst]
      decide
    · have hlt : j < now.length 0 := h2
      have hplace := hfinish 0 (by decide) j (by omega) hy.next
      omega
    · rintro ⟨i, hi, u, hy⟩
      obtain rfl : k = 1 := by omega
      have hlt : i < now.length 1 := hi
      have hplace := hfinish 1 (by decide) i (by omega) hy.next
      omega
  · show 22 < now.length 2
    rw [hthird]
    decide
  · have hlt : i < now.length 2 := hi
    have hplace := hfinish 2 (by decide) i (by omega) hy.next
    obtain rfl : i = 22 := by omega
    exact absurd (Value.text.inj (hyields.unique hy).2) (by decide)

end ReactiveLang.Session
