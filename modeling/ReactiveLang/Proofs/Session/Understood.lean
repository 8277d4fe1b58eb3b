import ReactiveLang.Proofs.Eval.Understood
import ReactiveLang.Proofs.Session.Proper
import ReactiveLang.Proofs.Session.Reactions

/-!
# Programs that run were understood

A program with source that was not understood is refused, wherever in the tree it is. So no pass of
a program that runs ends for such source, and no step comes to a node with a type that was not
understood to its last part (`runs_understood`). This holds for whatever the passes are handed,
instances and closures of earlier passes included: these too name definitions of their own kind
(`Handed.pass_ofKind`).
-/

namespace ReactiveLang

theorem Machine.Holds.contains {ok : Handle → Prop} {m : Machine} (h : m.Holds ok) {v : Value}
    (hv : m.Contains v) : v.Holds ok ∨ m.result = some v := by
  cases hv with
  | waiting hf hv => exact .inl (h.values _ hf _ hv)
  | bound he hb => exact .inl ((h.evaluations _ _ he).bindings _ hb)
  | subject he hs => exact .inl ((h.evaluations _ _ he).subject _ hs)
  | reaction he => exact .inl (h.reactions _ he)
  | remembered he => exact .inl (h.memo _ he)
  | result hr => exact .inr hr

namespace Session

variable {s : Session}

section
variable (h : s.Sound) {place : Nat} (hp : place < s.passes.size)
include h hp

/-- What passes are handed names definitions of their own kind, since each pass hands on what its
machines have made. -/
theorem Handed.pass_ofKind (a : s.Handed) :
    (s.record place).pass.Holds (Handle.OfKind s.program.tree) := by
  induction place with
  | zero =>
    rw [a.first]
    exact ⟨nofun, nofun⟩
  | succ k ih =>
    have hk := Nat.lt_of_succ_lt hp
    have hlater : k < s.newest := by
      unfold newest
      omega
    have hend : (s.machineAt k (s.length k)).Holds (Handle.OfKind s.program.tree) :=
      (h.passes k hk).retraces.ofKind (Machine.holds_start _) h.regular (ih hk) (Nat.le_refl _)
    have htakes := a.later k hlater
    constructor
    · rw [htakes.memo]
      exact hend.memo
    · rw [htakes.reactions]
      exact hend.reactions

variable (hpass : (s.record place).pass.Holds (Handle.OfKind s.program.tree)) {offset : Nat}
include hpass

theorem Sound.machineAt_ofKind (ho : offset ≤ s.length place) :
    (s.machineAt place offset).Holds (Handle.OfKind s.program.tree) :=
  (h.passes place hp).retraces.ofKind (Machine.holds_start _) h.regular hpass ho

/-- No pass ends for source that was not understood, if its steps are of nodes that were. -/
theorem Sound.result_understood
    (hnext : ∀ i st, i ≤ s.length place → (s.machineAt place i).next? = some st →
      s.program.tree.Understood st.node) (ho : offset ≤ s.length place) {v : Value}
    (hv : (s.machineAt place offset).result = some v) (node : NodeId) :
    v ≠ .exception .unparsable node := by
  cases offset with
  | zero => cases hv
  | succ i =>
    obtain ⟨st, -, hstep⟩ := (h.passes place hp).retraces i ho
    have hnone : (s.machineAt place i).result = none :=
      (h.passes place hp).retraces.result_none (start_known _ _) (h.passes place hp).known
        h.regular rfl ho
    have hi := Nat.le_of_succ_le ho
    have hkind := h.machineAt_ofKind hp hpass hi
    exact Machine.step_understood (w := s.world place) hkind h.regular hpass hnone
      (hnext i st hi (Machine.step_cases hstep).1).construct hstep hv node

omit hpass in
/-- The next step of every machine is one of a node that the root reaches. -/
theorem Sound.next_reaches (hf : s.Finished) (hin : s.InTree) (ho : offset ≤ s.length place)
    {st : Step} (hn : (s.machineAt place offset).next? = some st) :
    s.program.tree.Reaches st.node := by
  obtain ⟨-, hinside⟩ := h.machineAt_inside hf hp (hin place hp) ho
  obtain ⟨g, below, hframes, hg⟩ := Machine.frames_of_next? hn
  have hinside := hinside.resolve_left (Machine.frames_ne_nil_of_next? hn)
  rw [hframes] at hinside
  obtain ⟨st', hn', hreach, -⟩ :=
    hinside.moves hf.wellFormed ⟨0, .root⟩ (Frame.ofProgram_runs hf.code)
  obtain rfl : st' = st := Option.some.inj (hn'.symm.trans hg)
  exact hreach

end

/-- Programs that run were understood. Of a program that may run, whatever the host does, no value
is an exception for source that was not understood: no result of a pass, nothing in the history and
nothing in between. Every machine can call definitions of their own kind only. And each node that
its next step uses was understood, with all parts of the types that are written there: the node of
the step, the definitions that are running, a definition that is called with its inputs, and the
conversions that are looked at. -/
theorem runs_understood {d : Draft} {root : NodeId} {t : Tree} {config : Config} {s : Session}
    (ht : d.finish root = .ok t) (hs : Session.start t config = .ok s) (commands : List Command) :
    let now := s.after commands
    (∀ v, now.Contains v → ∀ node, v ≠ .exception .unparsable node) ∧
      ∀ place offset, place < now.passes.size → offset ≤ now.length place →
        (now.machineAt place offset).Holds (Handle.OfKind t) ∧
          ∀ id, (now.machineAt place offset).Uses (now.world place) id → t.Understood id := by
  intro now
  obtain ⟨-, hfatal, -⟩ := start_cases hs
  have hunderstood : ∀ id, t.Reaches id → t.Understood id := fun id hr =>
    (Draft.finish_wellFormed ht).understood hfatal hr
  obtain ⟨hnow, hf, hin, hprogram⟩ := start_after ht hs commands
  have htree : now.program.tree = t := congrArg Program.tree hprogram
  have hhanded : now.Handed := handed_after ht hs commands
  have hchron : now.Chronicled := chronicled_after ht hs commands
  have hpass := fun place (hp : place < now.passes.size) => hhanded.pass_ofKind hnow hp
  have hmachine := fun place (hp : place < now.passes.size) offset
    (ho : offset ≤ now.length place) => hnow.machineAt_ofKind hp (hpass place hp) ho
  have hclean : ∀ {v : Value}, v.Holds (Handle.OfKind now.program.tree) →
      ∀ node, v ≠ .exception .unparsable node := fun hv node =>
    Machine.ne_exception_of_clean (hv.mono fun _ => Handle.OfKind.ne_failure) _ node
  refine ⟨fun v hv => ?_, fun place offset hp ho => ⟨htree ▸ hmachine place hp offset ho, ?_⟩⟩
  · refine hnow.contains_only (P := fun v => ∀ node, v ≠ .exception .unparsable node) hchron
      (fun _ => Value.noConfusion) (fun place offset hp ho u hu => ?_) (fun place hp => ?_)
      (fun i x hx u hu => hclean (hnow.regular.holds i x hx u hu)) hv
    · obtain hholds | hresult := (hmachine place hp offset ho).contains hu
      · exact hclean hholds
      · refine hnow.result_understood hp (hpass place hp) (fun i st hi hn => ?_) ho hresult
        rw [htree]
        exact hunderstood _ (htree ▸ hnow.next_reaches hp hf hin hi hn)
    · exact ⟨fun e he => hclean ((hpass place hp).memo e he),
        fun e he => hclean ((hpass place hp).reactions e he)⟩
  · intro id hu
    obtain ⟨hinTree, -⟩ := hnow.machineAt_inside hf hp (hin place hp) ho
    refine hunderstood id ?_
    rw [← htree]
    exact hinTree.uses_reaches (hnow.ready hf hin hp)
      (fun st hn => hnow.next_reaches hp hf hin ho hn) hu

/-- The tree of a program that converts a text to a list by a conversion of its own, and tests its
type. -/
def wrapTree : Tree :=
  ⟨#[⟨.thisValue, .zero⟩, ⟨.list [⟨0⟩], .zero⟩, ⟨.conversionDef .text (.list .text) ⟨1⟩, .zero⟩,
    ⟨.text "a", .zero⟩, ⟨.binding "s" (some .text) (some ⟨3⟩), .zero⟩, ⟨.reference "s", .zero⟩,
    ⟨.convert ⟨5⟩ (.list .text), .zero⟩, ⟨.reference "s", .zero⟩,
    ⟨.typeTest ⟨7⟩ (.union .text .boolean), .zero⟩, ⟨.list [⟨6⟩, ⟨8⟩], .zero⟩,
    ⟨.block [⟨2⟩, ⟨4⟩, ⟨9⟩], .zero⟩, ⟨.program ⟨10⟩, .zero⟩],
    #[some ⟨1⟩, some ⟨2⟩, some ⟨10⟩, some ⟨4⟩, some ⟨10⟩, some ⟨6⟩, some ⟨9⟩, some ⟨8⟩, some ⟨9⟩,
      some ⟨10⟩, some ⟨11⟩, none], ⟨11⟩⟩

theorem finish_wrap : wrapTree.edit.finish ⟨11⟩ = .ok wrapTree := rfl

theorem start_wrap : Session.start wrapTree .default =
    .ok (ofProgram (Program.ofTree wrapTree .default)) :=
  start_eq (by decide) (by decide +kernel)

/-- Where the text is converted, the conversion is looked at, and it was understood. -/
theorem runs_understood_wrap : wrapTree.edit.finish ⟨11⟩ = .ok wrapTree ∧
    ∃ s, Session.start wrapTree .default = .ok s ∧
      let now := s.after [.evaluate, .tick 40, .react]
      (∃ v, now.result = some v ∧ ∀ node, v ≠ .exception .unparsable node) ∧
        (now.machineAt 0 12).Uses (now.world 0) ⟨2⟩ ∧ wrapTree.Understood ⟨2⟩ := by
  let now := (ofProgram (Program.ofTree wrapTree .default)).after [.evaluate, .tick 40, .react]
  obtain ⟨hvalues, hmachines⟩ := runs_understood finish_wrap start_wrap [.evaluate, .tick 40, .react]
  have htree : (now.world 0).tree = wrapTree :=
    congrArg Program.tree (start_after finish_wrap start_wrap _).2.2.2
  obtain ⟨v, hv⟩ : ∃ v, now.result = some v :=
    Option.isSome_iff_exists.1 (by decide +kernel)
  have hnext : (now.machineAt 0 12).next? = some (.finish ⟨6⟩) := by decide +kernel
  have htext : ((now.world 0).seen
      (World.operand ((now.machineAt 0 12).pop 1).1 0)).typeOf = .text := by decide +kernel
  have hconverts : (now.world 0).tree.construct ⟨6⟩ = .convert ⟨5⟩ (.list .text) := by
    rw [htree]
    rfl
  have huses : (now.machineAt 0 12).Uses (now.world 0) (Ty.text, (⟨2⟩ : NodeId)).2 := by
    refine .consulted hnext hconverts ?_
    rw [htext, htree]
    decide
  exact ⟨finish_wrap, _, start_wrap, ⟨v, hv, hvalues v (.result hv)⟩, huses,
    (hmachines 0 12 (by decide +kernel) (by decide +kernel)).2 ⟨2⟩ huses⟩

end Session
end ReactiveLang
