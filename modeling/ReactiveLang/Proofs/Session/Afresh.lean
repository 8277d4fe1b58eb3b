import ReactiveLang.Proofs.Session.Completing
import ReactiveLang.Proofs.Session.Memoizing
import ReactiveLang.Proofs.Syntax.Finished

/-!
# Reactions with nothing to take

A reaction runs the program in a new pass, which may take values of the pass before for nodes of the
program's own frame. `Session.reactAfresh` is the same reaction with nothing to take. In a plain
program both have the same result and the same values of reactions (`react_recomputes`); where a
call goes through a value they need not (`stale_through_name`).
-/

namespace ReactiveLang

namespace Session

open Analysis Direct

variable {s : Session}

section
variable (a : s.Memoizes) (h : s.Sound) (he : s.AtEnd) (hf : s.machine.isFinished = true)
include a h he hf

/-- The next pass takes values rightly. -/
theorem Memoizes.nextPass_reuses :
    (∃ known, Reuses s.program s.nextPass (s.nextPass.taken s.program) s.streams known) ∧
      (∀ e ∈ s.nextPass.reactions, e.2.Holds Handle.Plain) ∧ Prepared s.program s.nextPass := by
  have hnext : (s.beginPass s.nextPass).Memoizes := a.began h he hf
  have hsound : (s.beginPass s.nextPass).Sound := (h.begin he hf).1
  have hpass : ((s.beginPass s.nextPass).record (s.beginPass s.nextPass).newest).pass =
      s.nextPass := by
    rw [s.beginPass_newest, s.beginPass_record]
  have hreuses := hnext.reuses hsound
  have hkept := hnext.kept.reactions
  have hin := hnext.inTree _ hsound.newest_lt
  rw [hpass] at hreuses hkept hin
  exact ⟨hreuses, hkept, a.finished.wellFormed, a.finished.code, hin⟩

/-- A pass of a plain program ends as it does with nothing to take. -/
theorem Memoizes.evaluate_afresh
    (hfree : ∀ f : Failure, f.kind.isLimit = true →
      (s.beginPass s.nextPass).evaluate.1 ≠ f.toValue ∧
        (s.beginPass s.nextPass.afresh).evaluate.1 ≠ f.toValue) :
    (s.beginPass s.nextPass.afresh).evaluate.1 = (s.beginPass s.nextPass).evaluate.1 ∧
      (s.beginPass s.nextPass.afresh).evaluate.2.machine.reactions =
        (s.beginPass s.nextPass).evaluate.2.machine.reactions := by
  obtain ⟨hnumber, hknown, hrecallable⟩ := h.nextPass he
  obtain ⟨hstate, hvalue⟩ := h.evaluate_begun he hf hnumber hknown hrecallable
  have hnumber' : s.nextPass.afresh.number = s.passes.size := hnumber
  obtain ⟨hstate', hvalue'⟩ := h.evaluate_begun he hf hnumber' ⟨nofun, hknown.reactions⟩ nofun
  obtain ⟨⟨known, R⟩, hkept, hp⟩ := a.nextPass_reuses h he hf
  have w := a.finished.wellFormed
  have hmemoizable : s.program.analysis.isMemoizable s.program.tree.root = false ∧
      s.program.analysis.isMemoizable s.program.tree.programBlock = false :=
    ⟨Bool.eq_false_iff.2 fun hm => (ne_of_isMemoizable w hm).1 rfl,
      Bool.eq_false_iff.2 fun hm => (ne_of_isMemoizable w hm).2 rfl⟩
  obtain ⟨hresult, hreactions⟩ := R.run hkept w a.plain h.regular hp
    (fun _ _ => rfl) (Pass.taken_eq_none hmemoizable.1) (Pass.taken_eq_none hmemoizable.2)
    (show s.program.config.maxSteps < s.program.config.maxSteps + 2 by omega) fun f hlimit => by
      obtain ⟨hne, hne'⟩ := hfree f hlimit
      exact ⟨fun hr => hne (hvalue.trans (congrArg (Option.getD · _) hr)),
        fun hr => hne' (hvalue'.trans (congrArg (Option.getD · _) hr))⟩
  have hmachine := congrArg Prod.fst hstate
  have hmachine' := congrArg Prod.fst hstate'
  dsimp only [state] at hmachine hmachine'
  refine ⟨?_, by rw [hmachine, hmachine']; exact hreactions⟩
  rw [hvalue, hvalue']
  exact congrArg (Option.getD · _) hresult

end

/-- A reaction in which no value of the pass before is taken. -/
def reactAfresh (s : Session) : Value × Session :=
  (s.evaluate.2.beginPass s.evaluate.2.nextPass.afresh).evaluate

/-- Memory is sound in plain programs. After any commands, a reaction has the result and the values
of reactions that it has when it takes nothing of the pass before, unless a limit stops it. -/
theorem react_recomputes {d : Draft} {root : NodeId} {t : Tree} {config : Config} {s : Session}
    (ht : d.finish root = .ok t) (hs : Session.start t config = .ok s)
    (hplain : (Program.ofTree t config).analysis.Plain) (commands : List Command) :
    let now := s.after commands
    (∀ f : Failure, f.kind.isLimit = true →
      now.react.1 ≠ f.toValue ∧ now.reactAfresh.1 ≠ f.toValue) →
    now.reactAfresh.1 = now.react.1 ∧
      now.reactAfresh.2.machine.reactions = now.react.2.machine.reactions := by
  intro now hfree
  have hhost : now.Host := (host_start ht hs).after commands
  have w : t.WellFormed := Draft.finish_wellFormed ht
  have hblock : t.children t.programBlock = t.topLevel := by
    rw [Tree.children, show t.construct t.programBlock = _ from construct_programBlock hplain]
    rfl
  have hnodup : t.topLevel.Nodup := hblock ▸ Draft.finish_nodup ht
    (reaches_programBlock (a := (Program.ofTree t config).analysis) w).1
  have hnow : now.Memoizes := kept_memoizes.started ht hs
    (memoizes_ofProgram (p := .ofTree t config) ⟨w, rfl⟩ hplain hnodup none) commands
  have hlast := hhost.sound.evaluate (.inl hhost.begun)
  have ha : now.evaluate.2.Memoizes :=
    kept_memoizes.turns hhost.sound hnow (hhost.sound.turns_evaluate (.inl hhost.begun))
  rw [react_eq, announce_machine]
  refine ha.evaluate_afresh hlast.sound hlast.atEnd hlast.finished fun f hlimit => ?_
  have hreact : now.react.1 = now.followed.evaluate.1 := by rw [react_eq]
  exact ⟨hreact ▸ (hfree f hlimit).1, (hfree f hlimit).2⟩

/-! ## A program with a clock and a function -/

theorem ne_toValue_of_toNumber? {v : Value} {x : Float} (h : v.toNumber? = some x) (f : Failure) :
    v ≠ f.toValue := by
  rintro rfl
  cases h

/-- The tree of a program that doubles a number by a function of its own, opens a stream that gives
the time, and adds a millisecond to the value of the stream. -/
def doublingTree : Tree :=
  ⟨#[⟨.reference "x", .zero⟩, ⟨.reference "x", .zero⟩, ⟨.binary ⟨0⟩ .add ⟨1⟩, .zero⟩,
    ⟨.binding "x" none none, .zero⟩, ⟨.functionDef "double" [⟨3⟩] none (some ⟨2⟩), .zero⟩,
    ⟨.reference "double", .zero⟩, ⟨.number 2.0 .unitless, .zero⟩, ⟨.call ⟨5⟩ [⟨6⟩], .zero⟩,
    ⟨.binding "n" none (some ⟨7⟩), .zero⟩, ⟨.reference "Time", .zero⟩, ⟨.call ⟨9⟩ [], .zero⟩,
    ⟨.binding "t" none (some ⟨10⟩), .zero⟩, ⟨.reference "t", .zero⟩,
    ⟨.number 1.0 (.ofDimension "ms"), .zero⟩, ⟨.binary ⟨12⟩ .add ⟨13⟩, .zero⟩,
    ⟨.block [⟨4⟩, ⟨8⟩, ⟨11⟩, ⟨14⟩], .zero⟩, ⟨.program ⟨15⟩, .zero⟩],
    #[some ⟨2⟩, some ⟨2⟩, some ⟨4⟩, some ⟨4⟩, some ⟨15⟩, some ⟨7⟩, some ⟨7⟩, some ⟨8⟩, some ⟨15⟩,
      some ⟨10⟩, some ⟨11⟩, some ⟨15⟩, some ⟨14⟩, some ⟨14⟩, some ⟨15⟩, some ⟨16⟩, none], ⟨16⟩⟩

theorem finish_doubling : doublingTree.edit.finish ⟨16⟩ = .ok doublingTree := rfl

theorem start_doubling : Session.start doublingTree .default =
    .ok (ofProgram (Program.ofTree doublingTree .default)) :=
  start_eq (by decide) (by decide +kernel)

theorem plain_doubling : (Program.ofTree doublingTree .default).analysis.Plain := by
  decide +kernel

/-- When the clock has ticked, the program takes the doubled number from the pass before, adds to the
new time, and has the result that it has with nothing to take. -/
theorem react_recomputes_doubling : doublingTree.edit.finish ⟨16⟩ = .ok doublingTree ∧
    (Program.ofTree doublingTree .default).analysis.Plain ∧
    ∃ s, Session.start doublingTree .default = .ok s ∧
      let now := s.after [.evaluate, .tick 0.0, .tick 100.0]
      ((now.evaluate.2.nextPass.taken now.program ⟨7⟩).bind Value.toNumber? = some 4.0 ∧
        now.evaluate.2.nextPass.taken now.program ⟨14⟩ = none) ∧
        now.react.1.toNumber? = some 101.0 ∧ now.reactAfresh.1 = now.react.1 := by
  let now := (ofProgram (Program.ofTree doublingTree .default)).after
    [.evaluate, .tick 0.0, .tick 100.0]
  have htaken : (now.evaluate.2.nextPass.taken now.program ⟨7⟩).bind Value.toNumber? = some 4.0 ∧
      (now.evaluate.2.nextPass.taken now.program ⟨14⟩).isNone = true := by
    decide +kernel
  have hresults : now.react.1.toNumber? = some 101.0 ∧
      now.reactAfresh.1.toNumber? = some 101.0 := by
    decide +kernel
  obtain ⟨hsame, -⟩ := react_recomputes finish_doubling start_doubling plain_doubling
    [.evaluate, .tick 0.0, .tick 100.0] fun f _ =>
      ⟨ne_toValue_of_toNumber? hresults.1 f, ne_toValue_of_toNumber? hresults.2 f⟩
  exact ⟨finish_doubling, plain_doubling, _, start_doubling,
    ⟨htaken.1, Option.isNone_iff_eq_none.1 htaken.2⟩, hresults.1, hsame⟩

/-! ## A call through a name -/

/-- The tree of a program that names the kind of streams that give the time, calls the name, and adds
a millisecond to the value of the stream. -/
def namedClockTree : Tree :=
  ⟨#[⟨.reference "Time", .zero⟩, ⟨.binding "t" none (some ⟨0⟩), .zero⟩, ⟨.reference "t", .zero⟩,
    ⟨.call ⟨2⟩ [], .zero⟩, ⟨.number 1.0 (.ofDimension "ms"), .zero⟩, ⟨.binary ⟨3⟩ .add ⟨4⟩, .zero⟩,
    ⟨.block [⟨1⟩, ⟨5⟩], .zero⟩, ⟨.program ⟨6⟩, .zero⟩],
    #[some ⟨1⟩, some ⟨6⟩, some ⟨3⟩, some ⟨5⟩, some ⟨5⟩, some ⟨6⟩, some ⟨7⟩, none], ⟨7⟩⟩

theorem finish_namedClock : namedClockTree.edit.finish ⟨7⟩ = .ok namedClockTree := rfl

theorem start_namedClock : Session.start namedClockTree .default =
    .ok (ofProgram (Program.ofTree namedClockTree .default)) :=
  start_eq (by decide) (by decide +kernel)

/-- A call through a name is no source of the sum, so the sum of the first pass is taken again when
the clock has ticked. With nothing to reuse it would be another one. -/
theorem stale_through_name : namedClockTree.edit.finish ⟨7⟩ = .ok namedClockTree ∧
    ∃ s, Session.start namedClockTree .default = .ok s ∧
      let now := s.after [.evaluate, .tick 0.0, .tick 100.0]
      now.react.1.toNumber? = some 1.0 ∧ now.reactAfresh.1.toNumber? = some 101.0 ∧
        now.react.1 ≠ now.reactAfresh.1 ∧ ∀ f : Failure, f.kind.isLimit = true →
          now.react.1 ≠ f.toValue ∧ now.reactAfresh.1 ≠ f.toValue := by
  let now := (ofProgram (Program.ofTree namedClockTree .default)).after
    [.evaluate, .tick 0.0, .tick 100.0]
  have hresults : now.react.1.toNumber? = some 1.0 ∧ now.reactAfresh.1.toNumber? = some 101.0 := by
    decide +kernel
  obtain ⟨hreact, hafresh⟩ := hresults
  refine ⟨finish_namedClock, _, start_namedClock, hreact, hafresh, fun h => ?_,
    fun f _ => ⟨ne_toValue_of_toNumber? hreact f, ne_toValue_of_toNumber? hafresh f⟩⟩
  rw [← h, hreact] at hafresh
  exact absurd hafresh (by decide +kernel)

end Session
end ReactiveLang
