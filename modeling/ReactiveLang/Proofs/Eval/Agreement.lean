import ReactiveLang.Proofs.Eval.Simulation

/-!
# A pass has the result of the recursion

A pass always ends, and if no limit stops it, it ends as the recursion does: with the same value or
the same first failure at the same node, and with the same values of reactions
(`run_evaluates`). Within the limits the recursion says how the pass ends.
-/

namespace ReactiveLang

namespace Pass

open Direct

variable {r : Recall} {p : Program} {pass : Pass} {streams : Streams} {c : Machine × Streams}

/-! ## The end of a run -/

theorem run_done (h : c.1.next? = none) (n : Nat) : run p pass n c = c := by
  cases n with
  | zero => rfl
  | succ n =>
    have hs : c.1.step ⟨p, pass, c.2, false⟩ = none := Machine.step_eq_none_iff.2 h
    simp only [run, hs]

variable (p pass) in
/-- A run goes on until the pass is finished. -/
theorem run_isLive (h : c.1.IsLive) (n : Nat) : (run p pass n c).1.IsLive ∧
    ((run p pass n c).1.isFinished = true ∨ (run p pass n c).1.index = c.1.index + n) := by
  induction n with
  | zero => exact ⟨h, .inr rfl⟩
  | succ n ih =>
    obtain ⟨hl, hn⟩ := ih
    rw [run_add]
    cases hs : (run p pass n c).1.step ⟨p, pass, (run p pass n c).2, false⟩ with
    | none =>
      have hnext := Machine.step_eq_none_iff.1 hs
      rw [run_done hnext]
      exact ⟨hl, .inl (hl.next?_eq_none_iff.1 hnext)⟩
    | some r =>
      obtain ⟨step, m, streams⟩ := r
      obtain ⟨hl', hi⟩ := Machine.step_isLive hs
      simp only [run, hs]
      rcases hn with hn | hn
      · rw [hl.not_isFinished hs] at hn
        cases hn
      · exact ⟨hl', .inr (by rw [hi, hn]; omega)⟩

/-- A pass is finished after one step more than it may take. -/
theorem run_isFinished (h : c.1.IsLive) (hi : c.1.index = 0) :
    (run p pass (p.config.maxSteps + 1) c).1.isFinished = true := by
  obtain ⟨hl, hn⟩ := run_isLive p pass h p.config.maxSteps
  rw [run_add]
  cases hs : (run p pass p.config.maxSteps c).1.step
      ⟨p, pass, (run p pass p.config.maxSteps c).2, false⟩ with
  | none =>
    have hnext := Machine.step_eq_none_iff.1 hs
    rw [run_done hnext]
    exact hl.next?_eq_none_iff.1 hnext
  | some r =>
    obtain ⟨step, m, streams⟩ := r
    simp only [run, hs]
    rcases hn with hn | hn
    · rw [hl.not_isFinished hs] at hn
      cases hn
    · exact Machine.step_limit hs (Nat.le_of_eq (by rw [hn, hi, Nat.zero_add]))

theorem Ended.next? {status : Status} {v : Value} {s : Scene} (h : Ended status v s c) :
    c.1.next? = none := by
  rw [Machine.next?, h.frames]
  rfl

/-- Where a run has ended, it is at its end. -/
theorem Ends.at_end {status : Status} {v : Value} {s : Scene} (h : Ends r p pass status v s c)
    {n : Nat} (hn : (run p pass n c).1.next? = none) : Ended status v s (run p pass n c) ∧
      ∀ e ∈ (run p pass n c).1.memo, r.allows (run p pass n c).2.size e.1 e.2 := by
  obtain ⟨k, hk⟩ := h
  have heq : run p pass n c = run p pass k c := by
    rw [← run_done hn k, ← run_add, Nat.add_comm, run_add, run_done hk.1.next? n]
  rw [heq]
  exact hk

/-! ## Whole programs -/

/-- The state of a pass before its first step. -/
def begun (p : Program) (streams : Streams) : Machine × Streams := (Machine.start p, streams)

/-- After more steps than a pass may take, there is no next one. -/
theorem run_ended (hl : (begun p streams).1.IsLive) {n : Nat} (hn : p.config.maxSteps < n) :
    (run p pass n (begun p streams)).1.next? = none := by
  obtain ⟨k, rfl⟩ := Nat.exists_eq_add_of_le hn
  have hend : (run p pass (p.config.maxSteps + 1) (begun p streams)).1.next? = none :=
    (run_isLive p pass hl _).1.next?_eq_none_iff.2 (run_isFinished hl rfl)
  rw [run_add, run_done hend]
  exact hend

/-- A state is at the end of a pass that went as the recursion did. -/
def Gives (c : Machine × Streams) (s : Scene) : Except Failure Value → Prop
  | .ok v => Ended .completed v s c
  | .error f => Ended .exception f.toValue s c

/-- A run ends as the recursion did, and remembers what `r` allows. -/
def Comes (r : Recall) (p : Program) (pass : Pass) (c : Machine × Streams) (s : Scene) :
    Except Failure Value → Prop
  | .ok v => Ends r p pass .completed v s c
  | .error f => Ends r p pass .exception f.toValue s c

theorem Comes.at_end {s : Scene} {given : Except Failure Value} (h : Comes r p pass c s given)
    {n : Nat} (hn : (run p pass n c).1.next? = none) : Gives (run p pass n c) s given ∧
      ∀ e ∈ (run p pass n c).1.memo, r.allows (run p pass n c).2.size e.1 e.2 := by
  cases given with
  | ok v => exact Ends.at_end h hn
  | error f => exact Ends.at_end h hn

theorem start_inTree (hs : streams.Holds (Handle.InTree p.tree)) :
    (Scene.start p streams).InTree p.tree := by
  refine ⟨Evaluations.holds_empty.begin (Evaluation.holds_start _ _ _), fun id e he => ?_, hs⟩
  have he' : (Evaluations.begin .empty (.start .program p.tree.root none)).2.find? id = some e := he
  rw [Evaluations.find?_begin] at he'
  split at he'
  · cases he'
    exact ⟨0, .root⟩
  · simp [Evaluations.find?, Store.empty, Store.get?, StoreTree.get?] at he'

section
variable (hp : Prepared p pass) (hs : streams.Holds (Handle.InTree p.tree))
include hp

theorem begun_isLive : (begun p streams).1.IsLive := by
  refine Machine.start_isLive ?_
  rw [hp.code, Code.ofNode_ofTree, List.size_toArray]
  exact List.length_pos_iff.2 (hp.wellFormed.code_ne_nil ⟨0, .root⟩)

include hs

/-- The run of a whole program goes as the recursion says. -/
theorem run_gives {reuse : NodeId → Option Value}
    (hreuse : ∀ streams node, Machine.memoized? ⟨p, pass, streams, false⟩ node = reuse node)
    (fuel : Nat) :
    ((evaluateProgram p pass reuse fuel).runFrom (Scene.start p streams) = none →
        p.config.maxSteps < fuel →
          HitsLimit (recallOf p pass reuse streams) p pass (begun p streams)) ∧
      ∀ given s,
        (evaluateProgram p pass reuse fuel).runFrom (Scene.start p streams) = some (given, s) →
        (HitsLimit (recallOf p pass reuse streams) p pass (begun p streams) ∧ s.Exceeds p.config) ∨
          Comes (recallOf p pass reuse streams) p pass (begun p streams) s given := by
  let f : Frame := ⟨.program, p.code.ofNode p.tree.root, 0, [], .root⟩
  have hsteps : f.steps = (p.tree.code p.tree.root).toArray := by
    show p.code.ofNode p.tree.root = _
    rw [hp.code, Code.ofNode_ofTree]
  have hruns : f.Runs (p.tree.code p.tree.root) := by
    unfold Frame.Runs
    rw [hsteps]
    exact List.prefix_refl _
  have hat : (Scene.start p streams).At (recallOf p pass reuse streams) [f] (begun p streams) :=
    ⟨rfl, rfl, rfl, rfl, rfl, rfl, nofun⟩
  have hfollows : Follows (recallOf p pass reuse streams) p pass fuel
      (evaluate p pass reuse fuel 1 .root p.tree.root) (Scene.start p streams) [f] _ _ :=
    evaluate_follows hp hreuse rfl ⟨0, .root⟩ (fun _ => ⟨rfl, .program⟩) f hruns rfl
  have htracks := hfollows (start_inTree hs) _ hat
  rw [hp.wellFormed.code_eq ⟨0, .root⟩] at hruns
  rw [settled_of_next? hat hruns.next?] at htracks
  unfold evaluateProgram
  rw [runFrom_bind]
  generalize (evaluate p pass reuse fuel 1 .root p.tree.root).runFrom (Scene.start p streams) = x
    at htracks ⊢
  cases htracks with
  | outOfFuel limit => exact ⟨fun _ h => limit (Nat.lt_of_lt_of_le h (Nat.le_add_left _ _)), nofun⟩
  | @stopped r s grows sound limit exceeds =>
    refine ⟨fun h => ?_, fun r' s' h => .inl ⟨limit, ?_⟩⟩
    · cases r <;> cases h
    · cases r <;> (cases h; exact exceeds)
  | @failed e s grows ends =>
    refine ⟨nofun, fun r' s' h => .inr ?_⟩
    cases h
    exact ends
  | @reached v s c' grows inTree value there leads =>
    refine ⟨nofun, fun r' s' h => .inr ?_⟩
    have hdone : (f.passed (p.tree.code p.tree.root).length [v]).isDone = true := by
      simp [Frame.isDone, Frame.passed, hsteps, f]
    cases h
    exact leads.ends (settled_end there hdone)

/-- What a pass remembers in the end are values that nodes of the program's own evaluation have in the
recursion. -/
theorem run_recalls {reuse : NodeId → Option Value}
    (hreuse : ∀ streams node, Machine.memoized? ⟨p, pass, streams, false⟩ node = reuse node)
    {n : Nat} (hn : (run p pass n (begun p streams)).1.next? = none) :
    ∀ e ∈ (run p pass n (begun p streams)).1.memo,
      (recallOf p pass reuse streams).allows (run p pass n (begun p streams)).2.size e.1 e.2 := by
  obtain ⟨hnone, hsome⟩ := run_gives hp hs hreuse (p.config.maxSteps + 1)
  have hlimited : HitsLimit (recallOf p pass reuse streams) p pass (begun p streams) →
      ∀ e ∈ (run p pass n (begun p streams)).1.memo,
        (recallOf p pass reuse streams).allows (run p pass n (begun p streams)).2.size e.1 e.2 := by
    rintro ⟨f, s, -, hends⟩
    exact (hends.at_end hn).2
  cases heval : (evaluateProgram p pass reuse (p.config.maxSteps + 1)).runFrom
      (Scene.start p streams) with
  | none => exact hlimited (hnone heval (Nat.lt_succ_self _))
  | some gs =>
    obtain ⟨hlimit, -⟩ | hcomes := hsome gs.1 gs.2 heval
    · exact hlimited hlimit
    · exact (hcomes.at_end hn).2

/-- A pass that no limit has stopped ends as the recursion does. -/
theorem run_unlimited {reuse : NodeId → Option Value}
    (hreuse : ∀ streams node, Machine.memoized? ⟨p, pass, streams, false⟩ node = reuse node)
    {n : Nat} (hn : (run p pass n (begun p streams)).1.next? = none)
    (hfree : ∀ f : Failure, f.kind.isLimit = true →
      (run p pass n (begun p streams)).1.result ≠ some f.toValue) :
    (∃ given s, (evaluateProgram p pass reuse (p.config.maxSteps + 1)).runFrom
        (Scene.start p streams) = some (given, s)) ∧
      ∀ fuel given s, (evaluateProgram p pass reuse fuel).runFrom (Scene.start p streams) =
        some (given, s) → Gives (run p pass n (begun p streams)) s given := by
  have hnot : ¬ HitsLimit (recallOf p pass reuse streams) p pass (begun p streams) := by
    rintro ⟨f, s, hlimit, hf⟩
    exact hfree f hlimit (hf.at_end hn).1.result
  constructor
  · cases heval : (evaluateProgram p pass reuse (p.config.maxSteps + 1)).runFrom
        (Scene.start p streams) with
    | none => exact absurd ((run_gives hp hs hreuse _).1 heval (Nat.lt_succ_self _)) hnot
    | some gs => exact ⟨gs.1, gs.2, rfl⟩
  · intro fuel given s heval
    obtain ⟨hlimit, -⟩ | hcomes := (run_gives hp hs hreuse fuel).2 given s heval
    · exact absurd hlimit hnot
    · exact (hcomes.at_end hn).1

end

/-- The machine evaluates by recursion. Every pass ends. If no limit stops it, it ends with the value
or the failure of the recursion and with the same reactions; and whenever the recursion ends within
the limits, the pass ends so. The memory of the pass before is empty, and the values that reactions
and streams have name no structure and no closure but those of the tree. -/
theorem run_evaluates {d : Draft} {root : NodeId} {t : Tree} (ht : d.finish root = .ok t)
    (config : Config) {pass : Pass} (hmemo : pass.memo = [])
    (hreactions : ∀ e ∈ pass.reactions, e.2.Holds (Handle.InTree t)) {streams : Streams}
    (hstreams : streams.Holds (Handle.InTree t)) :
    let p := Program.ofTree t config
    let last := run p pass (config.maxSteps + 1) (begun p streams)
    let evaluated := fun fuel =>
      (evaluateProgram p pass (fun _ => none) fuel).runFrom (Scene.start p streams)
    last.1.isFinished = true ∧
      ((∀ f : Failure, f.kind.isLimit = true → last.1.result ≠ some f.toValue) →
        ∃ fuel r s, evaluated fuel = some (r, s) ∧ Gives last s r) ∧
      ∀ fuel r s, evaluated fuel = some (r, s) → ¬ s.Exceeds config → Gives last s r := by
  intro p last evaluated
  have hp : Prepared p pass :=
    ⟨Draft.finish_wellFormed ht, rfl, ⟨by rw [hmemo]; exact nofun, hreactions⟩⟩
  have hreuse : ∀ streams node, Machine.memoized? ⟨p, pass, streams, false⟩ node = none := by
    intro streams node
    simp [Machine.memoized?, hmemo]
  have hlive : (begun p streams).1.IsLive := begun_isLive hp
  have hfinished : last.1.isFinished = true := run_isFinished hlive rfl
  have hnext : last.1.next? = none :=
    (run_isLive p pass hlive (config.maxSteps + 1)).1.next?_eq_none_iff.2 hfinished
  have hgives := run_gives hp hstreams hreuse
  refine ⟨hfinished, fun hfree => ?_, fun fuel r s heval hwithin => ?_⟩
  · obtain ⟨⟨r, s, heval⟩, hends⟩ := run_unlimited hp hstreams hreuse hnext hfree
    exact ⟨_, r, s, heval, hends _ r s heval⟩
  · obtain ⟨-, hexceeds⟩ | hcomes := (hgives fuel).2 r s heval
    · exact absurd hexceeds hwithin
    · exact (hcomes.at_end hnext).1

/-- The tree of a program that defines `choose`, whose body is the conditional
`x ? 'yes' : 'no'`, and calls it with a true `x`. -/
def choiceTree : Tree :=
  ⟨#[⟨.reference "x", .zero⟩, ⟨.text "yes", .zero⟩, ⟨.text "no", .zero⟩,
    ⟨.conditional ⟨0⟩ ⟨1⟩ ⟨2⟩, .zero⟩, ⟨.binding "x" none none, .zero⟩,
    ⟨.functionDef "choose" [⟨4⟩] none (some ⟨3⟩), .zero⟩, ⟨.reference "choose", .zero⟩,
    ⟨.boolean true, .zero⟩, ⟨.call ⟨6⟩ [⟨7⟩], .zero⟩, ⟨.block [⟨5⟩, ⟨8⟩], .zero⟩,
    ⟨.program ⟨9⟩, .zero⟩],
    #[some ⟨3⟩, some ⟨3⟩, some ⟨3⟩, some ⟨5⟩, some ⟨5⟩, some ⟨9⟩, some ⟨8⟩, some ⟨8⟩, some ⟨9⟩,
      some ⟨10⟩, none], ⟨10⟩⟩

theorem finish_choice : choiceTree.edit.finish ⟨10⟩ = .ok choiceTree := rfl

/-- Whether a run of the recursion has given the text within the limits. -/
def gaveText (x : String) (config : Config) : Option (Except Failure Value × Scene) → Bool
  | some (.ok (.text y), s) => decide (y = x ∧ ¬ s.Exceeds config)
  | _ => false

theorem of_gaveText {x : String} {config : Config} {o : Option (Except Failure Value × Scene)}
    (h : gaveText x config o = true) : ∃ s, o = some (.ok (.text x), s) ∧ ¬ s.Exceeds config := by
  unfold gaveText at h
  split at h
  · obtain ⟨rfl, hs⟩ := of_decide_eq_true h
    exact ⟨_, rfl, hs⟩
  · cases h

/-- The recursion gives the text within the limits, and so does the machine. -/
theorem run_evaluates_choice : choiceTree.edit.finish ⟨10⟩ = .ok choiceTree ∧
    Pass.first.memo = [] ∧ (∀ e ∈ Pass.first.reactions, e.2.Holds (Handle.InTree choiceTree)) ∧
    Streams.empty.Holds (Handle.InTree choiceTree) ∧
    let p := Program.ofTree choiceTree .default
    (run p .first (Config.default.maxSteps + 1) (begun p .empty)).1.result = some (.text "yes") := by
  have hempty : Streams.empty.Holds (Handle.InTree choiceTree) := Streams.regular_empty.holds
  refine ⟨finish_choice, rfl, nofun, hempty, ?_⟩
  obtain ⟨-, -, hwithin⟩ :=
    run_evaluates finish_choice .default (show Pass.first.memo = [] from rfl) nofun hempty
  have heval : gaveText "yes" .default
      ((evaluateProgram (Program.ofTree choiceTree .default) .first (fun _ => none) 5).runFrom
        (Scene.start (Program.ofTree choiceTree .default) .empty)) = true := by
    decide +kernel
  obtain ⟨s, hx, hs⟩ := of_gaveText heval
  exact (hwithin 5 _ s hx hs).result

end Pass
end ReactiveLang
