import Mathlib.Data.List.Induction
import ReactiveLang.Proofs.Eval.Agreement
import ReactiveLang.Proofs.Eval.Renewal

/-!
# A pass beside the pass that takes nothing

Statement by statement, a pass that takes values of the pass before comes to what it comes to when it
evaluates everything, as long as each value that it takes is what the node would give.

* `Reuses`: what is known before each statement, and that values are taken rightly there.
* `Reuses.statements`: both come to the same after any number of statements.
* `Reuses.program`: so they do with the whole program.
* `Reuses.run`: and so do the machines, if no limit stops them.
-/

namespace ReactiveLang

/-- The pass with nothing to take. -/
def Pass.afresh (pass : Pass) : Pass := { pass with memo := [] }

namespace Direct

open Analysis Pairing

variable {p : Program} {pass : Pass} {reuse : NodeId → Option Value} {streams : Streams}

/-- The pass evaluates everything, for a node of the program's own evaluation. -/
abbrev afresh (p : Program) (pass : Pass) (fuel : Nat) (node : NodeId) : Direct Value :=
  evaluate p pass (fun _ => none) fuel 1 .root node

section
variable (p pass reuse streams)

/-- The two ways to run the pass, in a statement. -/
abbrev beside (root : Evaluation → Prop) (statement : NodeId) : Pairing p :=
  reusing p pass reuse streams root (p.analysis.Within statement)
    (fun name => p.tree.nameOf? statement = some name)

/-- Both ways are at scenes that look alike, where `root` is known of the program's own evaluation. -/
abbrev Beside (root : Evaluation → Prop) (s s' : Scene) : Prop :=
  (reusing p pass reuse streams root (fun _ => True) (fun _ => True)).Meets .root .root s s'

/-- What is known of the program's own evaluation when some statements have been evaluated, and that
values are taken rightly by the next one. -/
structure Reuses (known : List NodeId → Evaluation → Prop) : Prop where
  start : known [] (.start .program p.tree.root none)
  gains : ∀ {before statement later e name} v, p.tree.topLevel = before ++ statement :: later →
    known before e → p.tree.nameOf? statement = some name → known before (e.bind name v)
  next : ∀ {before statement later s s' s1 v e}, p.tree.topLevel = before ++ statement :: later →
    Beside p pass reuse streams (known before) s s' →
      Eventually (fun k => afresh p pass k statement) s' (.ok v, s1) →
        s1.evaluations.find? .root = some e → known before e → known (before ++ [statement]) e
  reused : ∀ {before statement later node v}, p.tree.topLevel = before ++ statement :: later →
    reuse node = some v → p.analysis.Within statement node →
      ∀ {s s'}, Beside p pass reuse streams (known before) s s' →
        ∃ s1, Eventually (fun k => afresh p pass k node) s' (.ok v, s1) ∧ v.Holds Handle.Plain ∧
          p.analysis.Typed node v ∧ Beside p pass reuse streams (known before) s s1

end

/-- What is known of the program's own evaluation and what is evaluated there can be told apart. -/
theorem meets_reusing {reuse' : NodeId → Option Value} {root root' : Evaluation → Prop}
    {inside inside' : NodeId → Prop} {allowed allowed' : String → Prop}
    {current current' : EvaluationId} {s s' : Scene}
    (hm : (reusing p pass reuse streams root inside allowed).Meets current current' s s')
    (himp : ∀ e, s'.evaluations.find? .root = some e → root e → root' e) :
    (reusing p pass reuse' streams root' inside' allowed').Meets current current' s s' := by
  obtain ⟨e, e', he, he', R⟩ := hm.roots
  refine ⟨hm.begun, hm.begun', hm.streams, hm.reactions,
    ⟨e, e', he, he', R.left, R.right, R.agree, R.same, himp e' he' R.root⟩, ?_⟩
  cases hm.alike with
  | program hleft hright => exact .program hleft hright
  | call hleft hright hbegun hbegun' hfound hfound' hcall =>
    exact .call hleft hright hbegun hbegun' hfound hfound' hcall

theorem beside_entered (hr : streams.Regular) {root : Evaluation → Prop}
    (h : root (.start .program p.tree.root none)) :
    Beside p pass reuse streams root (.entered p streams) (.entered p streams) := by
  have hfind := Scene.find?_entered p streams
  refine ⟨Nat.one_pos, Nat.one_pos, ⟨hr, .refl _ _, .refl _ _, hr⟩, rfl, ⟨_, _, hfind, hfind, ?_⟩,
    .program rfl rfl⟩
  exact ⟨Evaluation.ofProgram_start _, Evaluation.ofProgram_start _, nofun, fun _ => rfl, h⟩

section
variable {known : List NodeId → Evaluation → Prop} {before later : List NodeId} {statement : NodeId}
  (w : p.tree.WellFormed) (h : p.analysis.Plain) (R : Reuses p pass reuse streams known)
  (hkept : ∀ e ∈ pass.reactions, e.2.Holds Handle.Plain)
include w h R hkept

theorem Reuses.laws (hs : p.tree.topLevel = before ++ statement :: later) :
    (beside p pass reuse streams (known before) statement).Laws := by
  have htop : statement ∈ p.tree.topLevel := by rw [hs]; simp
  refine reusing_laws hkept (names_within w h htop) (fun v he hn => R.gains v hs he hn)
    fun hreuse hin _ _ _ _ hm => ?_
  obtain ⟨s1, hy, hv, ht, hm1⟩ := R.reused hs hreuse hin (meets_reusing hm fun _ _ he => he)
  exact ⟨s1, hy, hv, ht, meets_reusing hm1 fun _ _ he => he⟩

/-- A node that is evaluated for a statement comes to the same in both ways. -/
theorem Reuses.node (hs : p.tree.topLevel = before ++ statement :: later) {node : NodeId}
    (hin : p.analysis.Within statement node) (fuel : Nat) {s s' : Scene}
    (hm : Beside p pass reuse streams (known before) s s') :
    (beside p pass reuse streams (known before) statement).Matches
      (evaluate p pass reuse fuel 1 .root node) (fun k => afresh p pass k node) s s'
      fun v s1 s1' => (v.Holds Handle.Plain ∧ p.analysis.Typed node v) ∧
        Beside p pass reuse streams (known before) s1 s1' := by
  refine (evaluate_matches h w (R.laws w h hkept hs) fuel Nat.one_pos (fun _ => rfl)
    ⟨hin.reaches, fun _ _ _ => trivial, ⟨fun _ => hin.home, fun _ => rfl⟩, fun _ => hin⟩
      (meets_reusing hm fun _ _ he => he)).mono fun v s1 s1' hpost => ?_
  exact ⟨hpost.1, meets_reusing hpost.2 fun _ _ he => he⟩

/-- Where the first way comes to a node, the second one comes to a scene that looks alike. -/
theorem Reuses.descends (hs : p.tree.topLevel = before ++ statement :: later) {node : NodeId}
    {s0 s0' s : Scene} (hm : Beside p pass reuse streams (known before) s0 s0')
    (hd : Descends p pass reuse statement s0 node s) :
    ∃ s', Beside p pass reuse streams (known before) s s' := by
  have htop : statement ∈ p.tree.topLevel := by rw [hs]; simp
  have L := R.laws w h hkept hs
  induction hd with
  | here => exact ⟨s0', hm⟩
  | @child fuel node child s s1 hd _ hbefore ih =>
    obtain ⟨s', hm'⟩ := ih
    have hw := hd.within w htop
    have hmeets : (beside p pass reuse streams (known before) statement).Meets .root .root s s' :=
      meets_reusing hm' fun _ _ he => he
    obtain ⟨s1', hm1⟩ := before_meets h w L
      (fun child hfit s s' hm => evaluate_matches h w L fuel Nat.one_pos (fun _ => rfl) hfit hm)
      (fun child => lasting_evaluate _ _ _ _ child) (fun _ => trivial)
      ⟨hw.reaches, fun _ _ _ => trivial, ⟨fun _ => hw.home, fun _ => rfl⟩, fun _ => hw⟩
      hmeets.spent hbefore
    exact ⟨s1', meets_reusing hm1 fun _ _ he => he⟩

/-- After any number of statements both ways are at scenes that look alike. -/
theorem Reuses.statements (hr : streams.Regular) (fuel : Nat)
    (hs : p.tree.topLevel = before ++ later) :
    (reusing p pass reuse streams (known before) (fun _ => True) (fun _ => True)).Matches
      (before.mapM (evaluate p pass reuse fuel 1 .root)) (fun k => before.mapM (afresh p pass k))
      (.entered p streams) (.entered p streams) fun vs s s' =>
        (∀ v ∈ vs, v.Holds Handle.Plain) ∧ Beside p pass reuse streams (known before) s s' := by
  induction before using List.reverseRecOn generalizing later with
  | nil =>
    simp only [List.mapM_nil]
    exact .pure ⟨nofun, beside_entered hr R.start⟩
  | append_singleton before statement ih =>
    have hsplit : p.tree.topLevel = before ++ statement :: later := by rw [hs]; simp
    have htop : statement ∈ p.tree.topLevel := by rw [hsplit]; simp
    have hfirst := ih hsplit
    have L := R.laws w h hkept hsplit
    have hnode := fun s s' (hm : Beside p pass reuse streams (known before) s s') =>
      R.node w h hkept hsplit (within_self w htop) fuel hm
    simp only [List.mapM_append, List.mapM_cons, List.mapM_nil, bind_assoc, pure_bind]
    have hall : (beside p pass reuse streams (known before) statement).Matches
        (before.mapM (evaluate p pass reuse fuel 1 .root) >>= fun vs =>
          evaluate p pass reuse fuel 1 .root statement >>= fun v => pure (vs ++ [v]))
        (fun k => before.mapM (afresh p pass k) >>= fun vs =>
          afresh p pass k statement >>= fun v => pure (vs ++ [v]))
        (.entered p streams) (.entered p streams) fun vs s s' => (∀ v ∈ vs, v.Holds Handle.Plain) ∧
          Beside p pass reuse streams (known (before ++ [statement])) s s' := by
      refine Matches.bind L ⟨hfirst.ok, hfirst.error⟩
        (fun vs => (lasting_evaluate _ _ _ _ statement).bind fun v => lasting_pure (vs ++ [v]))
        fun vs s s' _ _ hpost => (hnode s s' hpost.2).bind L (fun v => lasting_pure (vs ++ [v]))
          fun v s1 s1' _ hy hv => .pure ⟨fun u hu => ?_, ?_⟩
      · rcases List.mem_append.1 hu with hu | hu
        · exact hpost.1 u hu
        · exact List.mem_singleton.1 hu ▸ hv.1.1
      · exact meets_reusing hv.2 fun e he hk => R.next hsplit hpost.2 hy he hk
    exact ⟨hall.ok, hall.error⟩

end

/-! ## The whole program -/

section
variable {eval : NodeId → Direct Value} {current : EvaluationId} {depth : Nat} {s : Scene}
  {run : EvaluationId → NodeId → Direct Value}

theorem operandsOf_program (w : p.tree.WellFormed) :
    operandsOf p pass eval current p.tree.root = [p.tree.programBlock].mapM eval := by
  obtain ⟨block, hb⟩ := w.root
  rw [operandsOf, hb]
  dsimp only
  rw [← hb]
  exact congrArg (List.mapM eval) (reaches_programBlock (a := p.analysis) w).2

theorem operandsOf_block (h : p.analysis.Plain) :
    operandsOf p pass eval current p.tree.programBlock = p.tree.topLevel.mapM eval := by
  rw [operandsOf, show p.tree.construct p.tree.programBlock = _ from construct_programBlock h]
  rfl

theorem finish_program (w : p.tree.WellFormed) (v : Value) :
    (finish p pass run depth current p.tree.root [v]).runFrom s = some (.ok v, s.spent) := by
  obtain ⟨block, hb⟩ := w.root
  rw [finish, runFrom_bind_ok runFrom_spend, runFrom_bind_ok runFrom_get, World.outcome,
    Scene.world_tree, hb]
  rfl

theorem finish_block (h : p.analysis.Plain) (vs : List Value) :
    (finish p pass run depth current p.tree.programBlock vs).runFrom s =
      some (.ok ((vs.map (s.spent.world p pass).seen).getLast?.getD .nothing), s.spent) := by
  rw [finish, runFrom_bind_ok runFrom_spend, runFrom_bind_ok runFrom_get, World.outcome,
    Scene.world_tree, show p.tree.construct p.tree.programBlock = _ from construct_programBlock h]
  rfl

end

/-- The recursion does not look at the memory of the pass before. -/
theorem evaluate_afresh (reuse : NodeId → Option Value) (fuel : Nat) :
    evaluate p pass.afresh reuse fuel = evaluate p pass reuse fuel := by
  induction fuel with
  | zero => rfl
  | succ fuel ih =>
    funext depth current node
    simp only [evaluate, ih]
    rfl

theorem evaluateProgram_afresh (reuse : NodeId → Option Value) (fuel : Nat) :
    evaluateProgram p pass.afresh reuse fuel = evaluateProgram p pass reuse fuel := by
  unfold evaluateProgram
  rw [evaluate_afresh]
  rfl

/-- The pass beside itself, with nothing to take. -/
abbrev alone (p : Program) (pass : Pass) (streams : Streams) : Pairing p :=
  reusing p pass (fun _ => none) streams (fun _ => True) (fun _ => True) (fun _ => True)

section
variable (hkept : ∀ e ∈ pass.reactions, e.2.Holds Handle.Plain)
include hkept

theorem alone_laws (streams : Streams) : (alone p pass streams).Laws :=
  reusing_laws hkept (names_all p.tree) (fun _ _ _ => trivial) fun h => nomatch h

variable {known : List NodeId → Evaluation → Prop} (w : p.tree.WellFormed) (h : p.analysis.Plain)
  (R : Reuses p pass reuse streams known) (hr : streams.Regular)
include w h R hr

/-- The block of all statements comes to the same in both ways. -/
theorem Reuses.block (hblock : reuse p.tree.programBlock = none) (fuel : Nat) :
    (alone p pass streams).Matches (evaluate p pass reuse fuel 1 .root p.tree.programBlock)
      (fun k => afresh p pass k p.tree.programBlock) (Scene.start p streams).spent
      (Scene.start p streams).spent fun v s s' => v.Holds Handle.Plain ∧
        Beside p pass reuse streams (known p.tree.topLevel) s s' := by
  have L : (alone p pass streams).Laws := alone_laws hkept streams
  cases fuel with
  | zero => exact ⟨fun _ _ hx => (nomatch hx), fun _ _ _ hx => nomatch hx⟩
  | succ fuel =>
    refine .of_succ ?_
    simp only [afresh, evaluate_succ reuse ((if_pos rfl).trans hblock),
      evaluate_succ (fun _ => none) (ite_self none)]
    refine .step runFrom_spend (fun _ => runFrom_spend) ?_
    simp only [operandsOf_block h]
    have hall := R.statements w h hkept hr fuel (List.append_nil _).symm
    refine Matches.bind L ⟨hall.ok, hall.error⟩
      (fun vs => lasting_finish (fun id node => keeps_evaluate_all _ _ _ id node) _ _ _ vs)
      fun vs s s' _ _ hpost => ?_
    have hseen : vs.map (s'.spent.world p pass).seen = vs.map (s.spent.world p pass).seen :=
      List.map_congr_left fun v hv => seen_eq L hpost.2.spent.streams (hpost.1 v hv)
    refine .congr (.pure ⟨?_, hpost.2.spent⟩) (finish_block h vs) fun k => (finish_block h vs).trans
      (by rw [hseen]; rfl)
    cases hl : (vs.map (s.spent.world p pass).seen).getLast? with
    | none => exact Value.holds_nothing
    | some v =>
      obtain ⟨u, hu, rfl⟩ := List.mem_map.1 (List.mem_of_getLast? hl)
      exact seen_simple L hpost.2.spent.streams (hpost.1 u hu)

/-- The whole program comes to the same in both ways, also to the same failure. -/
theorem Reuses.program (hroot : reuse p.tree.root = none)
    (hblock : reuse p.tree.programBlock = none) (fuel : Nat) :
    (alone p pass streams).Matches (evaluateProgram p pass reuse fuel)
      (evaluateProgram p pass fun _ => none) (.start p streams) (.start p streams)
      fun _ s s' => Beside p pass reuse streams (known p.tree.topLevel) s s' := by
  have L : (alone p pass streams).Laws := alone_laws hkept streams
  have hprogram : (alone p pass streams).Matches (evaluate p pass reuse fuel 1 .root p.tree.root)
      (fun k => afresh p pass k p.tree.root) (.start p streams) (.start p streams) fun v s s' =>
        v.Holds Handle.Plain ∧ Beside p pass reuse streams (known p.tree.topLevel) s s' := by
    cases fuel with
    | zero => exact ⟨fun _ _ hx => (nomatch hx), fun _ _ _ hx => nomatch hx⟩
    | succ fuel =>
      refine .of_succ ?_
      simp only [afresh, evaluate_succ reuse ((if_pos rfl).trans hroot),
        evaluate_succ (fun _ => none) (ite_self none)]
      refine .step runFrom_spend (fun _ => runFrom_spend) ?_
      simp only [operandsOf_program w, List.mapM_cons, List.mapM_nil, bind_assoc, pure_bind]
      refine (R.block hkept w h hr hblock fuel).bind L
        (fun v => lasting_finish (fun id node => keeps_evaluate_all _ _ _ id node) _ _ _ [v])
        fun v s s' _ _ hv => ?_
      exact .congr (.pure ⟨hv.1, hv.2.spent⟩) (finish_program w v) fun k => finish_program w v
  refine hprogram.bind L (fun v => ?_) fun v s s' _ _ hv => ?_
  · have hseen : Keeps (fun _ => True) .root (do
        let s ← get
        return (s.world p pass).seen v) := keeps_get.bind fun _ => keeps_pure _
    exact hseen.lasting
  · refine .step runFrom_get (fun _ => runFrom_get) ?_
    have hseen : (s'.world p pass).seen v = (s.world p pass).seen v :=
      seen_eq L hv.2.streams hv.1
    rw [hseen]
    exact .pure hv.2

/-! ## The machine -/

/-- A pass that takes values rightly ends as it does with nothing to take. -/
theorem Reuses.run (hp : Prepared p pass)
    (hreuse : ∀ streams node, Machine.memoized? ⟨p, pass, streams, false⟩ node = reuse node)
    (hroot : reuse p.tree.root = none) (hblock : reuse p.tree.programBlock = none) {n : Nat}
    (hn : p.config.maxSteps < n)
    (hfree : ∀ f : Failure, f.kind.isLimit = true →
      (Pass.run p pass n (Pass.begun p streams)).1.result ≠ some f.toValue ∧
        (Pass.run p pass.afresh n (Pass.begun p streams)).1.result ≠ some f.toValue) :
    (Pass.run p pass.afresh n (Pass.begun p streams)).1.result =
        (Pass.run p pass n (Pass.begun p streams)).1.result ∧
      (Pass.run p pass.afresh n (Pass.begun p streams)).1.reactions =
        (Pass.run p pass n (Pass.begun p streams)).1.reactions := by
  have hlive : (Pass.begun p streams).1.IsLive := Pass.begun_isLive hp
  have hp' : Prepared p pass.afresh := ⟨hp.wellFormed, hp.code, nofun, hp.pass.reactions⟩
  obtain ⟨⟨given, s, heval⟩, hends⟩ := Pass.run_unlimited hp hr.holds hreuse
    (Pass.run_ended hlive hn) fun f hf => (hfree f hf).1
  have hnone : ∀ streams node, Machine.memoized? ⟨p, pass.afresh, streams, false⟩ node = none :=
    fun _ _ => rfl
  obtain ⟨-, hends'⟩ := Pass.run_unlimited hp' hr.holds hnone (Pass.run_ended hlive hn)
    fun f hf => (hfree f hf).2
  have hmatches := R.program hkept w h hr hroot hblock (p.config.maxSteps + 1)
  have hgiven := hends _ given s heval
  cases given with
  | ok v =>
    obtain ⟨s', ⟨k, hk⟩, hm⟩ := hmatches.ok v s heval trivial
    have hgiven' := hends' k (.ok v) s'
      ((congrArg (runFrom · _) (evaluateProgram_afresh _ k)).trans (hk k (Nat.le_refl k)))
    exact ⟨hgiven'.result.trans hgiven.result.symm,
      hgiven'.reactions.trans ((Eq.symm hm.reactions).trans hgiven.reactions.symm)⟩
  | error f =>
    obtain ⟨s', ⟨k, hk⟩, hreactions⟩ := hmatches.error trivial f s heval trivial
    have hgiven' := hends' k (.error f) s'
      ((congrArg (runFrom · _) (evaluateProgram_afresh _ k)).trans (hk k (Nat.le_refl k)))
    exact ⟨hgiven'.result.trans hgiven.result.symm,
      hgiven'.reactions.trans ((Eq.symm hreactions).trans hgiven.reactions.symm)⟩

end

end Direct
end ReactiveLang
