import ReactiveLang.Proofs.Eval.Agreement
import ReactiveLang.Proofs.Eval.Binding
import ReactiveLang.Proofs.Session.Discipline

/-!
# References in sessions

A reference is looked up twice: in the tree, along the ancestors of the node, and in a run, along
the links of an evaluation. `reference_scoped`: where the tree leaves no doubt, a run finds a value
that was bound by the definition that the tree finds. A block is a scope in the tree only, so a
bind of an inner block can hide an outer one of the same name from what follows the block
(`hidden_by_block`).
-/

namespace ReactiveLang.Session

open Machine

variable {s : Session}

/-- Every machine of a pass follows the scopes of the tree, if the values that reactions have kept
do so. -/
theorem Sound.scoped (h : s.Sound) (hf : s.Finished) (hin : s.InTree) {k : Nat}
    (hk : k < s.passes.size)
    (hp : ∀ e ∈ (s.record k).pass.reactions,
      e.2.Holds (Handle.Lexical s.program.tree (Machine.start s.program).evaluations))
    {i : Nat} (hi : i ≤ s.length k) : Scoped (s.world k) (s.machineAt k) i := by
  have hpass := h.passes k hk
  have hw : Ready (s.world k) := ⟨hf.wellFormed, hf.code, hin k hk, h.regular.holds⟩
  refine Retraces.scoped hw h.regular ⟨fun e he => ?_, hp⟩ hpass.retraces hi
  exact Value.holds_of_isPortable (fun _ => trivial) (hpass.recallable e he)
    (hpass.known.memo e he)

/-- Static and dynamic scoping agree where no other definition of the name stands between a
reference and the definition that it resolves to. -/
theorem reference_scoped {d : Draft} {root : NodeId} {t : Tree} {config : Config} {s : Session}
    (ht : d.finish root = .ok t) (hs : Session.start t config = .ok s) (commands : List Command) :
    let now := s.after commands
    ∀ place offset, place < now.passes.size → offset ≤ now.length place →
      (∀ e ∈ (now.record place).pass.reactions,
        e.2.Holds (Handle.Lexical t (Machine.start now.program).evaluations)) →
      ∀ reference definition name found v,
        (now.machineAt place offset).Gets (now.world place) reference v →
        t.construct reference = .reference name → t.resolve reference = some found →
        found.node? = some definition → t.Clear reference definition →
        (∀ scope, t.Encloses scope (t.home reference) → t.Anchored scope) →
        let es := (now.machineAt place offset).evaluations
        ∃ id ∈ es.chain (now.machineAt place offset).current, es.Runs id (t.home definition) ∧
          ((∃ earlier < offset,
              (now.machineAt place earlier).Binds (now.world place) definition id v) ∨
            Evaluations.get? es id name = none) := by
  intro now place offset hp ho hkept reference definition name found v hget hc hr hn hclear hanchored
  obtain ⟨hnow, hf, hin, hprogram⟩ := start_after ht hs commands
  have htree : now.program.tree = t := congrArg Program.tree hprogram
  rw [← htree] at hkept hc hr hclear hanchored ⊢
  exact (hnow.scoped hf hin hp hkept ho).gets hf.wellFormed hget hc hr hn hclear hanchored

/-- Whether a node gives the boolean as its value. -/
def givesBoolean (b : Bool) : Except (ExceptionKind Value) Outcome → Bool
  | .ok (.value (.boolean c)) => c == b
  | _ => false

theorem of_givesBoolean {b : Bool} {o : Except (ExceptionKind Value) Outcome}
    (h : givesBoolean b o = true) : o = .ok (.value (.boolean b)) := by
  unfold givesBoolean at h
  split at h
  · rw [eq_of_beq h]
  · cases h

/-- In the call of `choose` its input stands for what the call has given. -/
theorem reference_scoped_choice : Pass.choiceTree.edit.finish ⟨10⟩ = .ok Pass.choiceTree ∧
    ∃ s, Session.start Pass.choiceTree .default = .ok s ∧
      let now := s.after [.evaluate]
      let m := now.machineAt 0 12
      0 < now.passes.size ∧ 12 ≤ now.length 0 ∧
        m.Gets (now.world 0) ⟨0⟩ (.boolean true) ∧
        Pass.choiceTree.resolve ⟨0⟩ = some (.binding ⟨4⟩) ∧
        ∃ id ∈ m.evaluations.chain m.current,
          m.evaluations.Runs id (Pass.choiceTree.home ⟨4⟩) ∧
          ((∃ earlier < 12, (now.machineAt 0 earlier).Binds (now.world 0) ⟨4⟩ id (.boolean true)) ∨
            Evaluations.get? m.evaluations id "x" = none) := by
  have hw := Draft.finish_wellFormed Pass.finish_choice
  have hs : Session.start Pass.choiceTree .default =
      .ok (ofProgram (Program.ofTree Pass.choiceTree .default)) :=
    start_eq (by decide) (by decide +kernel)
  let now := (ofProgram (Program.ofTree Pass.choiceTree .default)).after [.evaluate]
  have hplace : 0 < now.passes.size ∧ 12 ≤ now.length 0 := by decide +kernel
  have hkept : (now.record 0).pass.reactions = [] := by
    refine List.isEmpty_iff.1 ?_
    decide +kernel
  have hget : (now.machineAt 0 12).Gets (now.world 0) ⟨0⟩ (.boolean true) := by
    refine ⟨by decide +kernel, of_givesBoolean ?_⟩
    decide +kernel
  have hclear : Pass.choiceTree.Clear ⟨0⟩ ⟨4⟩ := by
    intro other hreach hname _ _
    have hone : ∀ i < Pass.choiceTree.nodes.size,
        (Pass.choiceTree.construct ⟨i⟩).definedName? =
          (Pass.choiceTree.construct ⟨4⟩).definedName? → i = 4 := by decide
    exact congrArg NodeId.mk (hone other.index (hw.index_lt hreach) hname)
  have hanchored : ∀ scope, Pass.choiceTree.Encloses scope (Pass.choiceTree.home ⟨0⟩) →
      Pass.choiceTree.Anchored scope := by
    intro scope h input output body hc
    have hhome : Pass.choiceTree.home ⟨0⟩ = ⟨5⟩ ∧
        Pass.choiceTree.home ⟨5⟩ = Pass.choiceTree.root := by decide
    rw [hhome.1] at h
    cases h with
    | refl => cases hc
    | around h =>
      rw [hhome.2] at h
      rw [hw.encloses_root h] at hc
      cases hc
  refine ⟨Pass.finish_choice, _, hs, hplace.1, hplace.2, hget, by decide, ?_⟩
  refine reference_scoped Pass.finish_choice hs [.evaluate] 0 12 hplace.1 hplace.2 ?_ ⟨0⟩ ⟨4⟩ "x" _
    (.boolean true) hget rfl (by decide : Pass.choiceTree.resolve ⟨0⟩ = some (.binding ⟨4⟩)) rfl
    hclear hanchored
  intro e he
  rw [show ((after _ [.evaluate]).record 0).pass.reactions = [] from hkept] at he
  cases he

/-! ## Blocks -/

/-- The tree of a program with a bind of `x` to a text, a conditional whose chosen branch is a block
that binds `x` to another text, and a reference to `x`. -/
def blockTree : Tree :=
  ⟨#[⟨.text "outer", .zero⟩, ⟨.binding "x" none (some ⟨0⟩), .zero⟩, ⟨.text "inner", .zero⟩,
    ⟨.binding "x" none (some ⟨2⟩), .zero⟩, ⟨.reference "x", .zero⟩, ⟨.block [⟨3⟩, ⟨4⟩], .zero⟩,
    ⟨.boolean true, .zero⟩, ⟨.text "no", .zero⟩, ⟨.conditional ⟨6⟩ ⟨5⟩ ⟨7⟩, .zero⟩,
    ⟨.reference "x", .zero⟩, ⟨.block [⟨1⟩, ⟨8⟩, ⟨9⟩], .zero⟩, ⟨.program ⟨10⟩, .zero⟩],
    #[some ⟨1⟩, some ⟨10⟩, some ⟨3⟩, some ⟨5⟩, some ⟨5⟩, some ⟨8⟩, some ⟨8⟩, some ⟨8⟩, some ⟨10⟩,
      some ⟨10⟩, some ⟨11⟩, none], ⟨11⟩⟩

/-- Whether a node gives the text as its value. -/
def givesText (x : String) : Except (ExceptionKind Value) Outcome → Bool
  | .ok (.value (.text y)) => y == x
  | _ => false

theorem of_givesText {x : String} {o : Except (ExceptionKind Value) Outcome}
    (h : givesText x o = true) : o = .ok (.value (.text x)) := by
  unfold givesText at h
  split at h
  · rw [eq_of_beq h]
  · cases h

/-- Whether the next step calls nothing and, if it gives a name to a text in the definition, gives
it to this one. -/
def bindsOnly (definition : NodeId) (x : String) (w : World) (m : Machine) : Bool :=
  match m.next? with
  | some (.finish node) =>
    match m.outcomeOf w node with
    | .ok (.named _ (.text y)) => decide (node = definition → y = x)
    | .ok (.run _) => false
    | _ => true
  | _ => true

/-- After the block the name stands for the outer bind in the tree, and has the inner text in the
run: the block has bound the name in the program's own evaluation. -/
theorem hidden_by_block : blockTree.edit.finish ⟨11⟩ = .ok blockTree ∧
    ∃ s, Session.start blockTree .default = .ok s ∧
      let now := s.after [.evaluate]
      blockTree.resolve ⟨9⟩ = some (.binding ⟨1⟩) ∧
        (now.machineAt 0 21).Gets (now.world 0) ⟨9⟩ (.text "inner") ∧
        ∀ earlier < 21, ∀ id,
          ¬ (now.machineAt 0 earlier).Binds (now.world 0) ⟨1⟩ id (.text "inner") := by
  let now := (ofProgram (Program.ofTree blockTree .default)).after [.evaluate]
  have hread : givesText "inner" ((now.machineAt 0 21).outcomeOf (now.world 0) ⟨9⟩) = true := by
    decide +kernel
  -- no step calls anything, and the outer bind gets its own text
  have hsteps : ∀ earlier < 21,
      bindsOnly ⟨1⟩ "outer" (now.world 0) (now.machineAt 0 earlier) = true := by
    decide +kernel
  have hkept : (now.world 0).pass.reactions = [] := by
    refine List.isEmpty_iff.1 ?_
    decide +kernel
  refine ⟨rfl, ofProgram (Program.ofTree blockTree .default),
    start_eq (by decide) (by decide +kernel), by decide,
    ⟨by decide +kernel, of_givesText hread⟩, ?_⟩
  intro earlier hlt id hb
  have hstep := hsteps earlier hlt
  unfold bindsOnly at hstep
  generalize hv : Value.text "inner" = v at hb
  cases hb with
  | finished hn ho =>
    rw [hn] at hstep
    dsimp only at hstep
    rw [ho, ← hv] at hstep
    have htext : "inner" = "outer" := of_decide_eq_true hstep rfl
    exact absurd htext (by decide)
  | kept _ _ _ hl =>
    rw [hkept] at hl
    cases hl
  | given hn ho _ =>
    rw [hn] at hstep
    dsimp only at hstep
    rw [ho] at hstep
    cases hstep

end ReactiveLang.Session
