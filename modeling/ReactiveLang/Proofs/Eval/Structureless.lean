import ReactiveLang.Proofs.Analysis.Plain
import ReactiveLang.Proofs.Eval.Reaching
import ReactiveLang.Proofs.Eval.Retracing

/-!
# Programs without structures

A plain program declares no structure. So its machines make no instances: no value of theirs holds
one, if no value that the pass starts with does (`Structureless.step`, `Retraces.structureless`).
-/

namespace ReactiveLang

/-- No instance, no structure to make one of, and of the streams only known ones. -/
def Handle.Simple (known : StreamId → Prop) : Handle → Prop
  | .stream id => known id
  | .callable (.structureDef _ _) | .instanceOf _ _ => False
  | .callable _ | .failure => True

theorem Handle.Simple.mono {known known' : StreamId → Prop} (himp : ∀ id, known id → known' id)
    (h : Handle) (hs : h.Simple known) : h.Simple known' := by
  cases h with
  | stream id => exact himp id hs
  | callable c => cases c <;> exact hs
  | instanceOf => exact hs
  | failure => trivial

/-- A node of a plain program may make all that is not about structures. -/
theorem Analysis.Plain.allows_simple {w : World} (h : w.program.analysis.Plain)
    (known : StreamId → Prop) {es : Evaluations}
    (hes : ∀ id e, es.find? id = some e → e.kind ≠ .structureDef) (current : EvaluationId)
    (node : NodeId) : Allows w es current node (Handle.Simple known) where
  function _ _ _ _ _ := trivial
  structureDef _ _ _ hc := absurd hc h.not_structureDef
  conversionDef _ _ _ _ := trivial
  memberFunction _ _ _ _ _ _ _ _ _ _ _ := trivial
  memberStructure _ _ _ _ _ _ _ _ _ hc := absurd hc h.not_structureDef
  this id e he hk := absurd hk (hes id e he)
  conversion _ _ _ _ _ _ := trivial

/-- No instance, and no structure to make one of. -/
abbrev Handle.Plain : Handle → Prop := Handle.Simple fun _ => True

namespace Machine

variable {m m' : Machine} {w : World} {s : Step} {streams : Streams} {f : Frame}
  {below : List Frame}

/-- The machine has no instances, and runs nothing that makes one. -/
structure Structureless (m : Machine) : Prop where
  holds : m.Holds Handle.Plain
  evaluations : ∀ id e, m.evaluations.find? id = some e → e.kind ≠ .structureDef
  frames : ∀ f ∈ m.frames, f.kind ≠ .structureDef

theorem structureless_start (p : Program) : (Machine.start p).Structureless := by
  refine ⟨holds_start p, fun id e he => ?_, fun f hf => ?_⟩
  · rw [find?_start] at he
    split at he
    · cases he
      exact nofun
    · cases he
  · obtain rfl := List.mem_singleton.1 hf
    exact nofun

theorem bindInputs_kind (t : Tree) (inputs : List NodeId) (arguments : List Value)
    (e : Evaluation) :
    (bindInputs t inputs arguments e).kind = e.kind := by
  induction inputs generalizing arguments e with
  | nil => simp [bindInputs]
  | cons input inputs ih =>
    cases arguments with
    | nil => simp [bindInputs]
    | cons v arguments =>
      unfold bindInputs
      split
      · exact ih arguments _
      · exact ih arguments e

theorem Named.kind {es es' : Evaluations} (h : Named es f es') {id : EvaluationId} {e : Evaluation}
    (he : es'.find? id = some e) : ∃ e', es.find? id = some e' ∧ e.kind = e'.kind := by
  obtain rfl | ⟨name, v, rfl⟩ := h
  · exact ⟨e, he, rfl⟩
  · rw [Evaluations.find?_bind] at he
    split at he
    · obtain ⟨e', he', rfl⟩ := Option.map_eq_some_iff.1 he
      exact ⟨e', he', rfl⟩
    · exact ⟨e, he, rfl⟩

namespace Structureless

theorem settle (hstreams : w.streams.Holds Handle.Plain) (h : m.Structureless) :
    (m.settle w).Structureless := by
  have hgives : ∀ g ∈ m.frames, m.GivesOnly (Value.Holds Handle.Plain) w g := by
    intro g hg values hvalues
    unfold frameResult
    rw [if_neg (h.frames g hg)]
    refine World.seen_holds hstreams ?_
    cases values with
    | nil => exact Value.holds_nothing
    | cons v rest => exact hvalues v List.mem_cons_self
  refine ⟨holds_iff_only.2 ((holds_iff_only.1 h.holds).settle hgives).1, fun id e he => ?_,
    fun g hg => ?_⟩
  · rw [settle_evaluations] at he
    exact h.evaluations id e he
  · obtain ⟨g', hg', hlater⟩ := settle_later w m g hg
    exact hlater.kind ▸ h.frames g' hg'

theorem advanced (h : m.Structureless) (hf : m.frames = f :: below) :
    m.advanced.Structureless := by
  have hm : m.Has (f :: below) m.evaluations := ⟨hf, rfl⟩
  refine ⟨h.holds.advanced, fun id e he => ?_, fun g hg => ?_⟩
  · rw [advanced_evaluations] at he
    exact h.evaluations id e he
  · obtain ⟨g', hg', hlater⟩ := hm.advanced_frames g hg
    exact hlater.kind ▸ h.frames g' hg'

section
variable (hplain : w.program.analysis.Plain) (hw : Ready w) (hpass : w.pass.Holds Handle.Plain)
  (hr : w.streams.Regular) (h : m.Structureless)
include hplain hw hpass hr h

theorem execute (hf : m.frames = f :: below) (he : m.advanced.execute w s = .ok (m', streams)) :
    m'.Structureless := by
  have ha := h.advanced hf
  have hallows := fun node =>
    hplain.allows_simple (fun _ => True) ha.evaluations m.advanced.current node
  have hholds := execute_holds (s := s) ha.holds
    ⟨fun node _ => hallows node, fun _ _ _ _ => trivial, hr.holds, hpass⟩ he
  obtain ⟨hn, hframes⟩ | ⟨node, call, -, ho, hes, hframes⟩ := execute_frames hw ⟨hf, rfl⟩ he
  · refine ⟨hholds, fun id e hfind => ?_, fun g hg => ?_⟩
    · obtain ⟨e', he', hkind⟩ := hn.kind hfind
      exact hkind ▸ h.evaluations id e' he'
    · obtain ⟨g', hg', hlater⟩ := hframes g hg
      exact hlater.kind ▸ h.frames g' hg'
  · -- what is called is no structure, since no value holds one
    have hm : m.Has (f :: below) m.evaluations := ⟨hf, rfl⟩
    rw [← (hm.pop _).1] at ho
    have hcall : call.Holds Handle.Plain := World.outcome_holds
      (hplain.allows_simple (fun _ => True) h.evaluations f.evaluation node) hr.holds
      h.holds.evaluations (h.holds.pop _).1 ho
    have hkind : call.kind ≠ .structureDef := by
      intro hkind
      have hcallable := hcall.callable
      rw [Call.callable, hkind] at hcallable
      exact hcallable
    refine ⟨hholds, fun id e hfind => ?_, fun g hg => ?_⟩
    · rw [hes, Evaluations.find?_begin] at hfind
      split at hfind
      · cases hfind
        rw [Call.evaluation, bindInputs_kind]
        exact hkind
      · exact h.evaluations id e hfind
    · obtain rfl | ⟨g', hg', hlater⟩ := hframes g hg
      · exact hkind
      · exact hlater.kind ▸ h.frames g' hg'

/-- A step makes no instance. -/
theorem step (hs : m.step w = some (s, m', streams)) : m'.Structureless := by
  obtain ⟨hnext, hcase⟩ := step_cases hs
  obtain ⟨f, below, hf, -⟩ := frames_of_next? hnext
  obtain ⟨failure, -, rfl, -⟩ | ⟨m1, he, rfl⟩ := hcase
  · have ha := h.advanced hf
    exact ⟨holds_fail ha.holds failure, ha.evaluations, nofun⟩
  · exact settle (w := { w with streams }) ((execute_streams he).2 hr).holds
      (h.execute hplain hw hpass hr hf he)

end

end Structureless

/-- No machine of a run makes an instance. -/
theorem Retraces.structureless {count : Nat} {steps : Nat → Option Step}
    (hrun : m.Retraces w count steps) (h : m.Structureless) (hplain : w.program.analysis.Plain)
    (hw : Ready w) (hpass : w.pass.Holds Handle.Plain) (hr : w.streams.Regular) {i : Nat}
    (hi : i ≤ count) : (m.after w i).Structureless := by
  induction i with
  | zero => exact h
  | succ i ih =>
    obtain ⟨s, -, hs⟩ := hrun i hi
    exact (ih (Nat.le_of_lt hi)).step hplain hw hpass hr hs

end Machine
end ReactiveLang
