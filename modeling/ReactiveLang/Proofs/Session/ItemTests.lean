import ReactiveLang.Proofs.Session.Navigation
import ReactiveLang.Proofs.Value.Items

/-!
# Type tests of collections

A type test of a collection compares one type, that of all items, with the type that is asked for.
It answers what tests of the items would, of all items that the collection's type shows
(`collection_tests`); a function of the program that comes first hides what comes after it
(`hidden_by_function`).
-/

namespace ReactiveLang

namespace World

/-- What a test of the value answers at a node. -/
def tests (w : World) (node : NodeId) (tested : Annotation) (v : Value) : Bool :=
  (w.tree.annotationType node tested).accepts v.typeOf

/-- A type test answers for the value that it sees. -/
theorem outcome_typeTest {w : World} {node expression : NodeId} {tested : Annotation}
    (hc : w.tree.construct node = .typeTest expression tested) (es : Evaluations)
    (current : EvaluationId) (operands : List Value) : w.outcome es current node operands =
      .ok (.value (.boolean (w.tests node tested (w.seen (operand operands 0))))) := by
  unfold outcome
  rw [hc]
  rfl

end World

namespace Session

open Value (Shown Typed)

/-- The tests of a collection and of its items. A list's type is accepted as a list of some type
exactly when that type accepts the types of all items that are shown; so it is with sets, and with
the keys and values of maps. An item that is not shown escapes: the list is accepted as one of some
type that does not accept the type of the item. All are shown where no function of the program,
stream or failure is among them, at any depth. And so a type test for a collection answers true
exactly when tests of all shown items do. -/
theorem collection_tests :
    (∀ (t : Ty) (items : List Value), (Ty.list t).accepts (Value.list items).typeOf = true ↔
      ∀ v ∈ items, Shown items v → t.accepts v.typeOf = true) ∧
    (∀ (t : Ty) (items : List Value), (Ty.set t).accepts (Value.set items).typeOf = true ↔
      ∀ v ∈ items, Shown items v → t.accepts v.typeOf = true) ∧
    (∀ (key value : Ty) (entries : List (Value × Value)),
      (Ty.map key value).accepts (Value.map entries).typeOf = true ↔
        (∀ e ∈ entries, Shown (entries.map (·.1)) e.1 → key.accepts e.1.typeOf = true) ∧
          ∀ e ∈ entries, Shown (entries.map (·.2)) e.2 → value.accepts e.2.typeOf = true) ∧
    (∀ (items : List Value) (v : Value), ¬ Shown items v →
      ∃ t : Ty, (Ty.list t).accepts (Value.list items).typeOf = true ∧
        t.accepts v.typeOf = false) ∧
    (∀ items : List Value, (∀ v ∈ items, v.Everywhere Typed) → ∀ v ∈ items, Shown items v) ∧
    ∀ (w : World) (es : Evaluations) (current : EvaluationId) (node expression : NodeId)
      (tested : Annotation) (operands : List Value),
      w.tree.construct node = .typeTest expression tested →
      ∃ answer, w.outcome es current node operands = .ok (.value (.boolean answer)) ∧
        (∀ item items, tested = .list item →
          w.seen (World.operand operands 0) = .list items →
          (answer = true ↔ ∀ v ∈ items, Shown items v → w.tests node item v = true)) ∧
        (∀ item items, tested = .set item →
          w.seen (World.operand operands 0) = .set items →
          (answer = true ↔ ∀ v ∈ items, Shown items v → w.tests node item v = true)) ∧
        ∀ key value entries, tested = .map key value →
          w.seen (World.operand operands 0) = .map entries →
          (answer = true ↔
            (∀ e ∈ entries, Shown (entries.map (·.1)) e.1 → w.tests node key e.1 = true) ∧
              ∀ e ∈ entries, Shown (entries.map (·.2)) e.2 → w.tests node value e.2 = true) := by
  refine ⟨fun t _ => Value.accepts_typeOf_list t, fun t _ => Value.accepts_typeOf_set t,
    fun key value _ => Value.accepts_typeOf_map key value, fun items v h => ?_,
    fun _ h v hv => Value.shown_of_typed h hv,
    fun w es current node expression tested operands hc => ?_⟩
  · obtain ⟨t, haccepts, hno⟩ := Value.exists_accepts_of_not_shown h
    refine ⟨t, ?_, hno⟩
    rwa [Value.typeOf, Value.typesOf_eq, Ty.accepts]
  · refine ⟨_, World.outcome_typeTest hc es current operands, ?_, ?_, ?_⟩
    · rintro item items rfl hseen
      rw [World.tests, hseen]
      exact Value.accepts_typeOf_list _
    · rintro item items rfl hseen
      rw [World.tests, hseen]
      exact Value.accepts_typeOf_set _
    · rintro key value entries rfl hseen
      rw [World.tests, hseen]
      exact Value.accepts_typeOf_map _ _

/-- The tree of a program that tests whether a list of a function and a number is one of texts. -/
def functionTree : Tree :=
  ⟨#[⟨.number 1 .unitless, .zero⟩, ⟨.functionDef "f" [] none (some ⟨0⟩), .zero⟩,
    ⟨.reference "f", .zero⟩, ⟨.number 1 .unitless, .zero⟩, ⟨.list [⟨2⟩, ⟨3⟩], .zero⟩,
    ⟨.typeTest ⟨4⟩ (.list .text), .zero⟩, ⟨.block [⟨1⟩, ⟨5⟩], .zero⟩, ⟨.program ⟨6⟩, .zero⟩],
    #[some ⟨1⟩, some ⟨6⟩, some ⟨4⟩, some ⟨4⟩, some ⟨5⟩, some ⟨6⟩, some ⟨7⟩, none], ⟨7⟩⟩

theorem finish_function : functionTree.edit.finish ⟨7⟩ = .ok functionTree := rfl

theorem start_function : Session.start functionTree .default =
    .ok (ofProgram (Program.ofTree functionTree .default)) :=
  start_eq (by decide) (by decide +kernel)

/-- The function hides the number after it, so the program's test answers true. A text hides
nothing. -/
theorem collection_tests_function :
    let program := Program.ofTree functionTree .default
    let w := (ofProgram program).world 0
    let es := (Machine.start program).evaluations
    let items := [Value.function (.function ⟨1⟩ .root), Value.number 1]
    let others := [Value.text "a", Value.number 1]
    (w.tree.construct ⟨5⟩ = .typeTest ⟨4⟩ (.list .text) ∧
      w.seen (World.operand [.list items] 0) = .list items ∧ ¬ Shown items (.number 1) ∧
      ∀ v ∈ others, v.Everywhere Typed) ∧
      (∃ t : Ty, (Ty.list t).accepts (Value.list items).typeOf = true ∧
        t.accepts (Value.number 1).typeOf = false) ∧
      w.outcome es .root ⟨5⟩ [.list items] = .ok (.value (.boolean true)) ∧
      ¬ (Ty.list .text).accepts (Value.list others).typeOf = true := by
  intro program w es items others
  have hc : w.tree.construct ⟨5⟩ = .typeTest ⟨4⟩ (.list .text) := rfl
  have hhidden : ¬ Shown items (.number 1) := by
    unfold Shown
    decide +kernel
  have htyped : ∀ v ∈ others, v.Everywhere Typed :=
    List.forall_mem_cons.2 ⟨(Value.everywhere_of_held_nil rfl).2 trivial,
      List.forall_mem_singleton.2 ((Value.everywhere_of_held_nil rfl).2 trivial)⟩
  obtain ⟨hlist, -, -, hescapes, hshown, hanswers⟩ := collection_tests
  obtain ⟨answer, houtcome, hanswer, -, -⟩ :=
    hanswers w es .root ⟨5⟩ ⟨4⟩ (.list .text) [.list items] hc
  have htrue : answer = true := (hanswer .text items rfl rfl).2 fun v hv hv' => by
    rcases List.mem_cons.1 hv with rfl | hv
    · exact Ty.accepts_unknown _ _
    · rw [List.mem_singleton.1 hv] at hv'
      exact absurd hv' hhidden
  rw [htrue] at houtcome
  refine ⟨⟨hc, rfl, hhidden, htyped⟩, hescapes items _ hhidden, houtcome, fun hall => ?_⟩
  have hnumber : Value.number 1 ∈ others := List.mem_cons_of_mem _ List.mem_cons_self
  have htext := (hlist .text others).1 hall _ hnumber (hshown others htyped _ hnumber)
  simp [Value.number, Value.typeOf, Ty.accepts] at htext

/-- A function comes before a number, and the list of the two counts as a list of texts; in the
other order it does not, and neither does the number count as a text. -/
theorem hidden_by_function : functionTree.edit.finish ⟨7⟩ = .ok functionTree ∧
    ∃ s, Session.start functionTree .default = .ok s ∧
      let now := s.after [.evaluate]
      now.result.bind Value.toBoolean? = some true ∧
        let f := Value.function (.function ⟨1⟩ .root)
        (Ty.list .text).accepts (Value.list [f, .number 1]).typeOf = true ∧
          Ty.text.accepts (Value.number 1).typeOf = false ∧
          (Ty.list .text).accepts (Value.list [.number 1, f]).typeOf = false := by
  refine ⟨finish_function, _, start_function, ?_⟩
  decide +kernel

end Session
end ReactiveLang
