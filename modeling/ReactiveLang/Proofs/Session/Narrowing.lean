import ReactiveLang.Proofs.Eval.Settled
import ReactiveLang.Proofs.Eval.Testing
import ReactiveLang.Proofs.Session.Reactions
import ReactiveLang.Proofs.Session.Scoping

/-!
# Narrowing in sessions

Narrowing takes a test of a member for a test of what an access to the member reads, whichever
instance the test was made of. `Led` names the tests that have led control to a node: those of the
conditions around it in its own evaluation, and of the conditions around a definition that the node
is in, where that was made. If these come out as they would for the value that the access reads,
then the type of the access accepts the type of the value (`narrowing_accepts`). A test of another
instance may come out differently, and then it does not (`narrowed_by_other`).

A pass may reuse a condition's value of an earlier pass, and call functions that earlier passes have
made. So what is known of tests goes on from pass to pass: `Tested`, `Told` and `Entered`.
-/

namespace ReactiveLang.Session

open Machine

variable (s : Session) (place offset : Nat)

/-! ## Tests -/

/-- The pass has taken the step, and that was before the given place of the given pass. -/
structure Earlier (pass step : Nat) : Prop where
  taken : step < s.length pass
  earlier : pass < place ∨ pass = place ∧ step < offset

/-- The type test was made of the value, in the evaluation of the pass, or in an earlier pass whose
value of the test, or of a condition that it decides, the pass has reused. -/
inductive Tested : Nat → EvaluationId → NodeId → Value → Prop where
  | made {pass step : Nat} {test : NodeId} {v : Value} (earlier : s.Earlier place offset pass step)
      (tests : (s.machineAt pass step).Tests (s.world pass) test v) :
      Tested pass (s.machineAt pass step).current test v
  | reused {pass step : Nat} {node test : NodeId} {u v : Value}
      (earlier : s.Earlier place offset (pass + 1) step)
      (reuses : (s.machineAt (pass + 1) step).Reuses (s.world (pass + 1)) node u)
      (rests : s.program.tree.RestsOn node test) (tested : Tested pass .root test v) :
      Tested (pass + 1) .root test v

/-- The type test, of this value, has led control to the node, which the step at the given place
runs. -/
inductive Led (node : NodeId) : NodeId → Value → Prop where
  | here {condition test : NodeId} {truth outcome : Bool} {v : Value}
      (guarded : s.program.tree.Guarded condition truth node)
      (entails : s.program.tree.Entails condition truth test outcome)
      (tested : s.Tested place offset place (s.machineAt place offset).current test v) :
      Led node test v
  | around {definition condition test : NodeId} {truth outcome : Bool} {pass step : Nat} {v : Value}
      (encloses : s.program.tree.Encloses definition (s.program.tree.home node))
      (guarded : s.program.tree.Guarded condition truth definition)
      (entails : s.program.tree.Entails condition truth test outcome)
      (earlier : s.Earlier place offset pass step)
      (defines : (s.machineAt pass step).next? = some (.finish definition))
      (tested : s.Tested place offset pass (s.machineAt pass step).current test v) :
      Led node test v

/-- A definition was made where tests told of the condition. -/
def Told (definition condition : NodeId) (truth : Bool) : Prop :=
  ∃ pass step, s.Earlier place offset pass step ∧
    (s.machineAt pass step).next? = some (.finish definition) ∧
      s.program.tree.Tells (s.Tested place offset pass (s.machineAt pass step).current) condition
        truth

/-! ## From pass to pass -/

/-- What the pass starts with is as tests tell. -/
structure Entered (pass : Nat) : Prop where
  holds : (s.record pass).pass.Holds (Handle.Settled s.program.tree (s.Told place offset))
  memo : ∀ node v, (s.record pass).pass.memo.lookup node = some v →
    ∃ before, pass = before + 1 ∧
      s.program.tree.Answers (s.Tested place offset before .root) node v

/-- The pass has come to the step along trails, and all that it can call is settled. -/
structure Along (pass step : Nat) : Prop where
  traced : (s.machineAt pass step).Traced s.program.tree (s.Tested place offset pass)
  settled : (s.machineAt pass step).Settled s.program.tree (s.Told place offset)

variable {s place offset}

section
variable {pass : Nat} (he : s.Entered place offset pass)
include he

/-- What is known of tests covers the step. -/
theorem Entered.heeds {step : Nat} (hb : s.Earlier place offset pass step)
    (ha : s.Along place offset pass step) :
    (s.machineAt pass step).Heeds (s.world pass) (s.Tested place offset pass) := by
  refine ⟨fun test v ht => .made hb ht, fun node u hreuses => ?_⟩
  -- only steps of the program's own reuse a value, so the tests for it were made in the root, too
  have ⟨_, halone, hmemo⟩ := hreuses
  obtain ⟨before, rfl, hanswers⟩ := he.memo node u (memoized?_eq_some_iff.1 hmemo).1
  rw [ha.traced.frames.current_of_inProgram halone]
  exact hanswers.mono fun test v hrests htested => .reused hb hreuses hrests htested

variable (h : s.Sound) (hf : s.Finished) (hin : s.InTree) (hp : pass < s.passes.size)
  (hnodup : ∀ node, s.program.tree.Reaches node → (s.program.tree.children node).Nodup)
  (hplaced : s.program.tree.Placed)
include h hf hin hp hnodup hplaced

/-- A step goes on along trails. -/
theorem Entered.step {step : Nat} (hb : s.Earlier place offset pass step)
    (ha : s.Along place offset pass step) : s.Along place offset pass (step + 1) := by
  have hw := h.ready hf hin hp
  have htree := (h.machineAt_inside hf hp (hin pass hp) (Nat.le_of_lt hb.taken)).1
  obtain ⟨st, -, hstep⟩ := (h.passes pass hp).retraces step hb.taken
  have hnext := (step_cases hstep).1
  refine ⟨ha.traced.step hw hnodup htree (he.heeds hb ha) hstep,
    Settled.step hw h.regular hplaced he.holds ha.settled (fun node hs condition truth hg => ?_)
      htree hstep⟩
  subst hs
  exact ⟨pass, step, hb, hnext, ha.traced.tells hf.wellFormed hnodup hnext hg⟩

/-- A pass goes along trails up to the given place. -/
theorem Entered.along {step : Nat} (hstep : step ≤ s.length pass)
    (hb : pass < place ∨ pass = place ∧ step ≤ offset) : s.Along place offset pass step := by
  induction step with
  | zero => exact ⟨traced_start hf.wellFormed hf.code _, settled_start hf.wellFormed hf.code⟩
  | succ step ih =>
    have hbefore : s.Earlier place offset pass step :=
      ⟨hstep, hb.imp_right fun hb => ⟨hb.1, hb.2⟩⟩
    exact he.step h hf hin hp hnodup hplaced hbefore
      (ih (Nat.le_of_succ_le hstep) (hb.imp_right fun hb => ⟨hb.1, Nat.le_of_succ_le hb.2⟩))

end

section
variable (h : s.Sound) (hf : s.Finished) (hin : s.InTree) (hh : s.Handed)
  (hnodup : ∀ node, s.program.tree.Reaches node → (s.program.tree.children node).Nodup)
  (hplaced : s.program.tree.Placed)
include h hf hin hh hnodup hplaced

/-- Every pass starts with what tests tell. -/
theorem Handed.entered {pass : Nat} (hp : pass < s.passes.size) (hle : pass ≤ place) :
    s.Entered place offset pass := by
  induction pass with
  | zero =>
    constructor <;> rw [hh.first]
    · exact ⟨nofun, nofun⟩
    · exact nofun
  | succ pass ih =>
    have hbefore : pass < s.passes.size := Nat.lt_of_succ_lt hp
    -- the pass before has come to its end along trails, and hands on what it has kept
    have hend := (ih hbefore (Nat.le_of_succ_le hle)).along h hf hin hbefore hnodup hplaced
      (Nat.le_refl _) (.inl hle)
    have htakes := hh.later pass (by unfold newest; omega)
    refine ⟨⟨?_, ?_⟩, fun node v hmemo => ⟨pass, rfl, hend.traced.memo node v ?_⟩⟩
    · rw [htakes.memo]
      exact hend.settled.holds.memo
    · rw [htakes.reactions]
      exact hend.settled.holds.reactions
    · rwa [← htakes.memo]

/-- Every test of which a condition around the node of a step tells has led to the step, and has come
out so. -/
theorem Handed.led (hp : place < s.passes.size) (ho : offset ≤ s.length place) {node : NodeId}
    (hn : (s.machineAt place offset).next? = some (.finish node)) :
    s.program.tree.Reaches node ∧ ∀ condition truth, s.program.tree.OnlyIf condition truth node →
      ∀ test outcome, s.program.tree.Entails condition truth test outcome →
        s.program.tree.Reaches test ∧ ∃ expression tested v,
          s.program.tree.construct test = .typeTest expression tested ∧
            s.Led place offset node test v ∧
              outcome = (s.program.tree.annotationType test tested).accepts v.typeOf := by
  have halong := (hh.entered h hf hin hnodup hplaced hp (Nat.le_refl _)).along h hf hin hp hnodup
    hplaced ho (.inr ⟨rfl, Nat.le_refl _⟩)
  obtain ⟨hreach, hhome⟩ := halong.settled.next hn
  refine ⟨hreach, fun condition truth hc test outcome he => ?_⟩
  rcases hc with hg | ⟨definition, henc, hg⟩
  -- a branch in the node's own scope, or one around a definition, which was made before
  · obtain ⟨expression, tested, v, hconstruct, htested, hout⟩ :=
      (halong.traced.tells hf.wellFormed hnodup hn hg).entails he
    exact ⟨he.reaches (hf.wellFormed.guarded_reaches hreach hg), expression, tested, v,
      hconstruct, .here hg he htested, hout⟩
  · obtain ⟨pass, step, hearlier, hdefines, htells⟩ := hhome definition henc condition truth hg
    obtain ⟨expression, tested, v, hconstruct, htested, hout⟩ := htells.entails he
    have hdefinition := hf.wellFormed.encloses_reaches henc (hf.wellFormed.home_reaches hreach)
    exact ⟨he.reaches (hf.wellFormed.guarded_reaches hdefinition hg), expression, tested, v,
      hconstruct, .around henc hg he hearlier hdefines htested, hout⟩

end

/-- Whatever a property gets of a member with a declared type, the type of the access accepts its
type, if every test that narrowing takes for one of the member has come out as it would for this
value in leading control to the access. So it is with tests of the very value that the access reads;
tests of another instance need not agree. -/
theorem narrowing_accepts {d : Draft} {root : NodeId} {t : Tree} {config : Config} {s : Session}
    (ht : d.finish root = .ok t) (hs : Session.start t config = .ok s) (commands : List Command) :
    let now := s.after commands
    let a := Analysis.ofTree t
    a.conflicts = [] →
      (∀ test expression tested, t.Reaches test → t.construct test = .typeTest expression tested →
        (t.annotationType test tested).isPlain = true) →
      ∀ place offset, place < now.passes.size → offset ≤ now.length place →
        ∀ access subject name member bound annotation value v,
          (now.machineAt place offset).Gets (now.world place) access v →
          t.construct access = .property subject name → a.memberOf access = some member →
          t.construct member = .binding bound (some annotation) value →
          let declared := t.annotationType member annotation
          declared.isPlain = true → declared.accepts v.typeOf = true →
          (∀ test u, now.Led place offset access test u → ∀ expression tested,
            t.construct test = .typeTest expression tested →
              a.Counts access member expression →
                (t.annotationType test tested).accepts u.typeOf =
                  (t.annotationType test tested).accepts v.typeOf) →
          (a.typeOf access).accepts v.typeOf = true := by
  intro now a hconflicts htests place offset hp ho access subject name member bound annotation value
    v hget hc hm hb declared hplain ha hled
  have hnow : now.Handed := handed_after ht hs commands
  obtain ⟨hsound, hf, hin, hprogram⟩ := start_after ht hs commands
  have htree : now.program.tree = t := congrArg Program.tree hprogram
  have hw : t.WellFormed := Draft.finish_wellFormed ht
  have hnodup : ∀ node, now.program.tree.Reaches node → (now.program.tree.children node).Nodup := by
    intro node hr
    rw [htree] at hr ⊢
    exact Draft.finish_nodup ht hr
  have hplaced : now.program.tree.Placed := htree ▸ hw.placed hconflicts
  obtain ⟨hreach, htells⟩ := hnow.led hsound hf hin hnodup hplaced hp ho hget.next
  rw [htree] at hreach htells
  refine Analysis.typeOf_accepts hw hreach hc hm hb hplain ha fun condition truth honly => ?_
  intro test outcome he expression tested hconstruct hcounts
  obtain ⟨hr, expression', tested', u, hconstruct', htest, rfl⟩ := htells condition truth honly test
    outcome he
  rw [hconstruct] at hconstruct'
  cases hconstruct'
  exact ⟨htests test expression tested hr hconstruct,
    (hled test u htest expression tested hconstruct hcounts).symm⟩

/-! ## One instance and another -/

/-- In the first pass no test comes from an earlier one. -/
theorem Led.first {node test : NodeId} {v : Value} (h : s.Led 0 offset node test v) :
    ∃ step < offset, (s.machineAt 0 step).Tests (s.world 0) test v := by
  have hmade : ∀ {id}, s.Tested 0 offset 0 id test v →
      ∃ step < offset, (s.machineAt 0 step).Tests (s.world 0) test v := by
    intro id htested
    cases htested with
    | made hearlier htests =>
      exact ⟨_, (hearlier.earlier.resolve_left (Nat.not_lt_zero _)).2, htests⟩
  cases h with
  | here _ _ htested => exact hmade htested
  | around _ _ _ hearlier _ htested =>
    obtain ⟨rfl, -⟩ := hearlier.earlier.resolve_left (Nat.not_lt_zero _)
    exact hmade htested

/-- Whether the node tests nothing, or for a type that narrowing takes apart. -/
def testsPlain (t : Tree) (node : NodeId) : Bool :=
  match t.construct node with
  | .typeTest _ tested => (t.annotationType node tested).isPlain
  | _ => true

theorem isPlain_of_testsPlain {t : Tree} (w : t.WellFormed)
    (h : ∀ i < t.nodes.size, testsPlain t ⟨i⟩ = true) {test expression : NodeId}
    {tested : Annotation} (hr : t.Reaches test)
    (hc : t.construct test = .typeTest expression tested) :
    (t.annotationType test tested).isPlain = true := by
  have hplain := h test.index (w.index_lt hr)
  rwa [testsPlain, hc] at hplain

/-- Whether the next step makes no type test, or makes one of the text. -/
def testsOnly (x : String) (w : World) (m : Machine) : Bool :=
  match m.next? with
  | some (.finish node) =>
    match w.tree.construct node with
    | .typeTest _ _ =>
      match m.currentValue?.map w.seen with
      | some (.text y) => y == x
      | _ => false
    | _ => true
  | _ => true

theorem tests_of_testsOnly {x : String} {w : World} {m : Machine} (h : testsOnly x w m = true)
    {test expression : NodeId} {tested : Annotation} (hn : m.next? = some (.finish test))
    (hc : w.tree.construct test = .typeTest expression tested) : m.Tests w test (.text x) := by
  unfold testsOnly at h
  rw [hn] at h
  dsimp only at h
  rw [hc] at h
  dsimp only at h
  split at h
  · rename_i y hseen
    obtain ⟨operand, hv, hy⟩ := Option.map_eq_some_iff.1 hseen
    exact ⟨hn, operand, hv, by rw [hy, eq_of_beq h]⟩
  · cases h

/-- The tree of a program with a structure whose input is a text or nothing, an instance with a
text, and a conditional that tests the input and then reads it. -/
def catTree : Tree :=
  ⟨#[⟨.binding "name" (some (.union .text .nothing)) none, .zero⟩,
    ⟨.structureDef "Cat" [⟨0⟩] none, .zero⟩, ⟨.text "Tom", .zero⟩, ⟨.reference "Cat", .zero⟩,
    ⟨.call ⟨3⟩ [⟨2⟩], .zero⟩, ⟨.binding "a" none (some ⟨4⟩), .zero⟩, ⟨.reference "a", .zero⟩,
    ⟨.property ⟨6⟩ "name", .zero⟩, ⟨.typeTest ⟨7⟩ .text, .zero⟩, ⟨.reference "a", .zero⟩,
    ⟨.property ⟨9⟩ "name", .zero⟩, ⟨.text "none", .zero⟩, ⟨.conditional ⟨8⟩ ⟨10⟩ ⟨11⟩, .zero⟩,
    ⟨.block [⟨1⟩, ⟨5⟩, ⟨12⟩], .zero⟩, ⟨.program ⟨13⟩, .zero⟩],
    #[some ⟨1⟩, some ⟨13⟩, some ⟨4⟩, some ⟨4⟩, some ⟨5⟩, some ⟨13⟩, some ⟨7⟩, some ⟨8⟩, some ⟨12⟩,
      some ⟨10⟩, some ⟨12⟩, some ⟨12⟩, some ⟨13⟩, some ⟨14⟩, none], ⟨14⟩⟩

theorem finish_cat : catTree.edit.finish ⟨14⟩ = .ok catTree := rfl

theorem start_cat : Session.start catTree .default =
    .ok (ofProgram (Program.ofTree catTree .default)) :=
  start_eq (by decide) (by decide +kernel)

/-- The access reads the text that was tested, so its type accepts the type of the text. -/
theorem narrowing_accepts_cat : catTree.edit.finish ⟨14⟩ = .ok catTree ∧
    ∃ s, Session.start catTree .default = .ok s ∧
      let now := s.after [.evaluate]
      let a := Analysis.ofTree catTree
      a.conflicts = [] ∧ 0 < now.passes.size ∧ 23 ≤ now.length 0 ∧
        (now.machineAt 0 23).Gets (now.world 0) ⟨10⟩ (.text "Tom") ∧
        a.memberOf ⟨10⟩ = some ⟨0⟩ ∧
        (∀ test u, now.Led 0 23 ⟨10⟩ test u → ∀ expression tested,
          catTree.construct test = .typeTest expression tested → u = .text "Tom") ∧
        (a.typeOf ⟨10⟩).accepts (Value.text "Tom").typeOf = true := by
  let now := (ofProgram (Program.ofTree catTree .default)).after [.evaluate]
  let a := Analysis.ofTree catTree
  have hruns : (0 < now.passes.size ∧ 23 ≤ now.length 0) ∧
      ((now.machineAt 0 23).next? = some (.finish ⟨10⟩) ∧
        givesText "Tom" ((now.machineAt 0 23).outcomeOf (now.world 0) ⟨10⟩) = true) ∧
      ∀ step < 23, testsOnly "Tom" (now.world 0) (now.machineAt 0 step) = true := by
    decide +kernel
  obtain ⟨hplace, ⟨hnext, hgives⟩, htests⟩ := hruns
  have hget : (now.machineAt 0 23).Gets (now.world 0) ⟨10⟩ (.text "Tom") :=
    ⟨hnext, of_givesText hgives⟩
  have hconflicts : a.conflicts = [] := by
    refine List.isEmpty_iff.1 ?_
    decide +kernel
  have hmember : a.memberOf ⟨10⟩ = some ⟨0⟩ := by decide +kernel
  have hled : ∀ test u, now.Led 0 23 ⟨10⟩ test u → ∀ expression tested,
      catTree.construct test = .typeTest expression tested → u = .text "Tom" := by
    intro test u hled expression tested hc
    obtain ⟨step, hlt, htest⟩ := hled.first
    have htree : (now.world 0).tree = catTree :=
      congrArg Program.tree (start_after finish_cat start_cat [.evaluate]).2.2.2
    exact htest.unique (tests_of_testsOnly (htests step hlt) htest.1 (htree ▸ hc))
  refine ⟨finish_cat, _, start_cat, hconflicts, hplace.1, hplace.2, hget, hmember, hled, ?_⟩
  refine narrowing_accepts finish_cat start_cat [.evaluate] hconflicts
    (fun test expression tested hr hc => isPlain_of_testsPlain (Draft.finish_wellFormed finish_cat)
      (by decide +kernel) hr hc) 0 23 hplace.1 hplace.2 ⟨10⟩ ⟨9⟩ "name" ⟨0⟩ "name"
      (.union .text .nothing) none (.text "Tom") hget rfl hmember rfl (by decide) (by decide +kernel)
      fun test u ht expression tested hc _ => ?_
  rw [hled test u ht expression tested hc]

/-- The tree of a program with an instance that has a text and one that has nothing, and a
conditional that tests the input of the first and then reads that of the second. -/
def catsTree : Tree :=
  ⟨#[⟨.binding "name" (some (.union .text .nothing)) none, .zero⟩,
    ⟨.structureDef "Cat" [⟨0⟩] none, .zero⟩, ⟨.text "Tom", .zero⟩, ⟨.reference "Cat", .zero⟩,
    ⟨.call ⟨3⟩ [⟨2⟩], .zero⟩, ⟨.binding "a" none (some ⟨4⟩), .zero⟩, ⟨.nothing, .zero⟩,
    ⟨.reference "Cat", .zero⟩, ⟨.call ⟨7⟩ [⟨6⟩], .zero⟩, ⟨.binding "b" none (some ⟨8⟩), .zero⟩,
    ⟨.reference "a", .zero⟩, ⟨.property ⟨10⟩ "name", .zero⟩, ⟨.typeTest ⟨11⟩ .text, .zero⟩,
    ⟨.reference "b", .zero⟩, ⟨.property ⟨13⟩ "name", .zero⟩, ⟨.text "none", .zero⟩,
    ⟨.conditional ⟨12⟩ ⟨14⟩ ⟨15⟩, .zero⟩, ⟨.block [⟨1⟩, ⟨5⟩, ⟨9⟩, ⟨16⟩], .zero⟩,
    ⟨.program ⟨17⟩, .zero⟩],
    #[some ⟨1⟩, some ⟨17⟩, some ⟨4⟩, some ⟨4⟩, some ⟨5⟩, some ⟨17⟩, some ⟨8⟩, some ⟨8⟩, some ⟨9⟩,
      some ⟨17⟩, some ⟨11⟩, some ⟨12⟩, some ⟨16⟩, some ⟨14⟩, some ⟨16⟩, some ⟨16⟩, some ⟨17⟩,
      some ⟨18⟩, none], ⟨18⟩⟩

/-- Whether a node gives nothing as its value. -/
def givesNothing : Except (ExceptionKind Value) Outcome → Bool
  | .ok (.value .nothing) => true
  | _ => false

theorem of_givesNothing {o : Except (ExceptionKind Value) Outcome} (h : givesNothing o = true) :
    o = .ok (.value .nothing) := by
  unfold givesNothing at h
  split at h
  · rfl
  · cases h

/-- The access reads nothing, which its declared type accepts, but its type is narrowed to a text by
the test of the other instance. -/
theorem narrowed_by_other : catsTree.edit.finish ⟨18⟩ = .ok catsTree ∧
    ∃ s, Session.start catsTree .default = .ok s ∧
      let now := s.after [.evaluate]
      let a := Analysis.ofTree catsTree
      a.conflicts = [] ∧
        (∀ test expression tested, catsTree.Reaches test →
          catsTree.construct test = .typeTest expression tested →
            (catsTree.annotationType test tested).isPlain = true) ∧
        (now.machineAt 0 26).Tests (now.world 0) ⟨12⟩ (.text "Tom") ∧
        (now.machineAt 0 31).Gets (now.world 0) ⟨14⟩ .nothing ∧
        a.memberOf ⟨14⟩ = some ⟨0⟩ ∧
        let declared := catsTree.annotationType ⟨0⟩ (.union .text .nothing)
        declared.isPlain = true ∧ declared.accepts Value.nothing.typeOf = true ∧
          (a.typeOf ⟨14⟩).accepts Value.nothing.typeOf = false := by
  let now := (ofProgram (Program.ofTree catsTree .default)).after [.evaluate]
  let a := Analysis.ofTree catsTree
  have hfinish : catsTree.edit.finish ⟨18⟩ = .ok catsTree := rfl
  have hstart : Session.start catsTree .default =
      .ok (ofProgram (Program.ofTree catsTree .default)) :=
    start_eq (by decide) (by decide +kernel)
  have hconflicts : a.conflicts = [] := by
    refine List.isEmpty_iff.1 ?_
    decide +kernel
  have hruns : ((now.machineAt 0 31).next? = some (.finish ⟨14⟩) ∧
        givesNothing ((now.machineAt 0 31).outcomeOf (now.world 0) ⟨14⟩) = true) ∧
      (now.machineAt 0 26).next? = some (.finish ⟨12⟩) ∧
        testsOnly "Tom" (now.world 0) (now.machineAt 0 26) = true := by
    decide +kernel
  obtain ⟨⟨hnext, hgives⟩, hfirst, honly⟩ := hruns
  have htree : (now.world 0).tree = catsTree :=
    congrArg Program.tree (start_after hfinish hstart [.evaluate]).2.2.2
  have hc : (now.world 0).tree.construct ⟨12⟩ = .typeTest ⟨11⟩ .text := by
    rw [htree]
    rfl
  refine ⟨hfinish, _, hstart, hconflicts, ?_, tests_of_testsOnly honly hfirst hc,
    ⟨hnext, of_givesNothing hgives⟩, by decide +kernel, by decide, by decide +kernel,
    by decide +kernel⟩
  intro test expression tested hr htest
  exact isPlain_of_testsPlain (Draft.finish_wellFormed hfinish) (by decide +kernel) hr htest

end ReactiveLang.Session
