import ReactiveLang.Proofs.Eval.Reaching
import ReactiveLang.Proofs.Syntax.Scopes

/-!
# Evaluations follow scopes

An evaluation runs the code of one definition, and the evaluation that it is linked to runs the
definition around that one: the machine is `Lexical`, and every step keeps it so (`Lexical.step`).
Only a conversion may be linked to another scope than its own, if it is neither the program's nor
for instances of the structure it stands in (`Tree.Anchored`).
-/

namespace ReactiveLang

namespace Evaluations

/-- This evaluation has begun, and runs the definition. -/
def Runs (es : Evaluations) (id : EvaluationId) (definition : NodeId) : Prop :=
  ∃ e, es.find? id = some e ∧ e.definition = definition

/-- A definition sees the names of this evaluation: one that runs the definition around it. -/
structure Sees (t : Tree) (es : Evaluations) (definition : NodeId) (closure : EvaluationId) :
    Prop where
  begun : (es.find? closure).isSome = true
  runs : t.Anchored definition → es.Runs closure (t.home definition)

variable {t : Tree} {es es' : Evaluations} {id : EvaluationId} {definition : NodeId}

theorem Runs.isSome (h : es.Runs id definition) : (es.find? id).isSome = true := by
  obtain ⟨e, he, -⟩ := h
  rw [he]
  rfl

theorem Runs.unique {other : NodeId} (h : es.Runs id definition) (h' : es.Runs id other) :
    definition = other := by
  obtain ⟨e, he, rfl⟩ := h
  obtain ⟨e', he', rfl⟩ := h'
  rw [he] at he'
  cases he'
  rfl

theorem Runs.sees {closure : EvaluationId} (h : es.Runs closure (t.home definition)) :
    es.Sees t definition closure := ⟨h.isSome, fun _ => h⟩

/-- What runs in some evaluations does so in others. -/
def Keeps (es es' : Evaluations) : Prop := ∀ id definition, es.Runs id definition →
  es'.Runs id definition

theorem Keeps.sees (h : es.Keeps es') {closure : EvaluationId} (hs : es.Sees t definition closure) :
    es'.Sees t definition closure := by
  obtain ⟨e, he⟩ := Option.isSome_iff_exists.1 hs.begun
  exact ⟨(h closure e.definition ⟨e, he, rfl⟩).isSome, fun ha => h _ _ (hs.runs ha)⟩

theorem keeps_bind (at_ : EvaluationId) (name : String) (v : Value) :
    es.Keeps (Evaluations.bind es at_ name v) := by
  rintro id definition ⟨e, he, rfl⟩
  unfold Runs
  rw [find?_bind, he]
  split
  · exact ⟨_, rfl, rfl⟩
  · exact ⟨e, rfl, rfl⟩

theorem keeps_begin (hnew : es.find? ⟨es.size⟩ = none) (e : Evaluation) :
    es.Keeps (es.begin e).2 := by
  rintro id definition ⟨e', he, rfl⟩
  refine ⟨e', ?_, rfl⟩
  rw [find?_begin, if_neg, he]
  rintro rfl
  rw [hnew] at he
  cases he

theorem runs_begin (e : Evaluation) : (es.begin e).2.Runs (es.begin e).1 e.definition :=
  ⟨e, (find?_begin e _).trans (if_pos rfl), rfl⟩

end Evaluations

open Evaluations

/-- The pointer names a definition with an evaluation whose names it sees, or the evaluation that
made an instance. -/
def Handle.Lexical (t : Tree) (es : Evaluations) : Handle → Prop
  | .callable (.function definition closure) => t.Reaches definition ∧ es.Sees t definition closure
  | .callable (.structureDef definition closure) =>
    t.Reaches definition ∧ es.Sees t definition closure
  | .callable (.conversion definition closure) =>
    t.Reaches definition ∧ es.Sees t definition closure
  | .instanceOf definition evaluation => t.Reaches definition ∧ es.Runs evaluation definition
  | _ => True

namespace Handle

variable {t : Tree} {es es' : Evaluations} {h : Handle}

theorem Lexical.mono (hk : es.Keeps es') (hl : h.Lexical t es) : h.Lexical t es' := by
  unfold Handle.Lexical at hl ⊢
  split
  · exact ⟨hl.1, hk.sees hl.2⟩
  · exact ⟨hl.1, hk.sees hl.2⟩
  · exact ⟨hl.1, hk.sees hl.2⟩
  · exact ⟨hl.1, hk _ _ hl.2⟩
  · trivial

theorem Lexical.inTree (hl : h.Lexical t es) : h.InTree t := by
  cases h with
  | callable c =>
    intro definition hd
    cases c with
    | function | structureDef | conversion => cases hd; exact hl.1
    | text | stream => cases hd
  | instanceOf definition evaluation => exact hl.1
  | stream | failure => trivial

/-- The evaluation that the pointer names has begun. -/
theorem Lexical.begun (hl : h.Lexical t es) {id : EvaluationId} (hid : h.evaluation? = some id) :
    (es.find? id).isSome = true := by
  cases h with
  | callable c =>
    cases c with
    | function | structureDef | conversion => cases hid; exact hl.2.begun
    | text | stream => cases hid
  | instanceOf definition evaluation => cases hid; exact hl.2.isSome
  | stream | failure => cases hid

end Handle

/-! ## Conversions -/

theorem Value.members_typeOf (v : Value) : v.typeOf.members = [v.typeOf] := by
  cases v with
  | function callable => cases callable <;> rfl
  | _ => rfl

/-- Only an instance of a structure is accepted where such an instance is expected. -/
theorem Value.instanceOf_of_accepts {v : Value} {definition : NodeId} {name : String}
    (hk : v.typeOf.isUnknown = false) (h : (Ty.instanceOf definition name).accepts v.typeOf = true) :
    ∃ object, v = .instanceOf object ∧ object.definition = definition := by
  cases v with
  | instanceOf object => exact ⟨object, rfl, by simpa [Value.typeOf, Ty.accepts, eq_comm] using h⟩
  | exception => cases hk
  | function callable =>
    cases callable with
    | text | stream => simp [typeOf, callableType, Signature.functionType, Ty.accepts] at h
    | _ => cases hk
  | _ => simp [typeOf, Ty.accepts] at h

namespace Tree

variable {t : Tree}

/-- A conversion that is found is one of the converted instance's structure, or declared for the
value's type. -/
theorem conversion?_cases {v : Value} {target : Ty} {node definition : NodeId} {output : Ty}
    (h : t.conversion? v.typeOf target node = some ⟨.defined definition, output⟩) :
    (∃ object, v = .instanceOf object ∧ definition ∈ t.structureStatements object.definition) ∨
      v.typeOf.isUnknown = false ∧ ∃ taken given body,
        t.construct definition = .conversionDef taken given body ∧
        (t.annotationType definition taken).accepts v.typeOf = true := by
  obtain ⟨hknown, -⟩ := conversion?_found h
  obtain ⟨member, hc, taken, given, body, hdef, haccepts⟩ := conversion?_defined h
  obtain ⟨hm, ⟨structureDef, name, rfl, hs⟩ | -⟩ := consulted_cases hc
  · obtain ⟨object, rfl, rfl⟩ := Value.instanceOf_of_mem_members hm
    exact .inl ⟨object, rfl, hs⟩
  · rw [Value.members_typeOf] at hm
    obtain rfl := List.mem_singleton.1 hm
    exact .inr ⟨hknown, taken, given, body, hdef, haccepts⟩

end Tree

section
variable {w : World} (hw : w.tree.WellFormed) {es : Evaluations}
  (hroot : es.Runs .root w.tree.root)
include hw hroot

/-- A conversion that is found sees the names of the program, or of the converted instance. -/
theorem World.conversionClosure_sees {v : Value} {target : Ty} {node definition : NodeId}
    {output : Ty} (hn : w.tree.Reaches definition)
    (hc : w.tree.conversion? v.typeOf target node = some ⟨.defined definition, output⟩)
    (hv : v.Holds (Handle.Lexical w.tree es)) :
    es.Sees w.tree definition (w.conversionClosure definition v) := by
  have hobject : ∀ object, v = .instanceOf object →
      w.tree.Reaches object.definition ∧ es.Runs object.evaluation object.definition := by
    rintro object rfl
    exact ((Value.holds_instanceOf object).1 hv).1
  -- a conversion for instances of its own structure sees the names of the instance
  have hinstance : ∀ object, v = .instanceOf object →
      definition ∈ w.tree.structureStatements object.definition →
      es.Sees w.tree definition (w.conversionClosure definition v) := by
    intro object hv hs
    obtain ⟨hreach, hruns⟩ := hobject object hv
    obtain ⟨hhome, hbody⟩ := hw.structureStatement_home hreach hs
    subst hv
    rw [World.conversionClosure, if_pos hbody]
    exact Runs.sees (hhome.symm ▸ hruns)
  obtain ⟨object, hv, hs⟩ | ⟨hknown, taken, given, body, hdef, haccepts⟩ :=
    Tree.conversion?_cases hc
  · exact hinstance object hv hs
  · have hbegun : (es.find? (w.conversionClosure definition v)).isSome = true := by
      unfold World.conversionClosure
      split
      · rename_i object
        split
        · exact (hobject object rfl).2.isSome
        · exact hroot.isSome
      · exact hroot.isSome
    refine ⟨hbegun, fun ha => ?_⟩
    rcases ha _ _ _ hdef with hhome | ⟨hs, htype⟩
    · have hclosure : w.conversionClosure definition v = .root := by
        unfold World.conversionClosure
        rw [hw.not_isStructureBody hn hhome]
        split <;> rfl
      rw [hclosure, hhome]
      exact hroot
    · rw [htype] at haccepts
      obtain ⟨object, hv, hd⟩ := Value.instanceOf_of_accepts hknown haccepts
      exact (hinstance object hv (hd ▸ hs)).runs ha

/-- What a node makes in an evaluation of its scope sees the names of the scope around it. -/
theorem allows_lexical (hes : ∀ id e, es.find? id = some e → w.tree.Reaches e.definition)
    {current : EvaluationId} {node : NodeId} (hn : w.tree.Reaches node)
    (hc : es.Runs current (w.tree.home node)) :
    Allows w es current node (Handle.Lexical w.tree es) where
  function _ _ _ _ _ := ⟨hn, hc.sees⟩
  structureDef _ _ _ _ := ⟨hn, hc.sees⟩
  conversionDef _ _ _ _ := ⟨hn, hc.sees⟩
  memberFunction definition e name member f inputs output body h hm _ :=
    ⟨h.1.member hm, Runs.sees (hw.member_home h.1 hm ▸ h.2)⟩
  memberStructure definition e name member f inputs body h hm _ :=
    ⟨h.1.member hm, Runs.sees (hw.member_home h.1 hm ▸ h.2)⟩
  this id e he _ := ⟨hes id e he, e, he, rfl⟩
  conversion v target definition type hd hv := by
    have hreaches : Allows w es current node (Handle.InTree w.tree) := hw.allows hes hn
    have hreach : w.tree.Reaches definition :=
      hreaches.conversion v target definition type hd (hv.mono fun _ => Handle.Lexical.inTree)
        definition rfl
    exact ⟨hreach, World.conversionClosure_sees hw hroot hreach hd hv⟩

end

/-- The definition of a call sees the names of the evaluation that the call is linked to. -/
theorem Call.Holds.sees {t : Tree} {es : Evaluations} {call : Call}
    (h : call.Holds (Handle.Lexical t es)) :
    t.Reaches call.definition ∧ es.Sees t call.definition call.closure := by
  have hc := h.callable
  unfold Call.callable at hc
  split at hc <;> exact hc

namespace Machine

/-! ## Lexical machines -/

/-- Every evaluation, frame and value of the machine follows the scopes of the tree. -/
structure Lexical (t : Tree) (m : Machine) : Prop where
  holds : m.Holds (Handle.Lexical t m.evaluations)
  root : m.evaluations.Runs .root t.root
  closed : ∀ id e next, m.evaluations.find? id = some e → e.closure = some next →
    m.evaluations.Sees t e.definition next
  outermost : ∀ id e, m.evaluations.find? id = some e → e.closure = none → e.definition = t.root
  frames : ∀ f ∈ m.frames, ∀ s ∈ f.steps.toList,
    t.Reaches s.node ∧ m.evaluations.Runs f.evaluation (t.home s.node)

variable {m m' : Machine} {w : World} {s : Step} {streams : Streams} {f : Frame}
  {below : List Frame} {es es' : Evaluations} {t : Tree}

theorem lexical_start {p : Program} (hw : p.tree.WellFormed) (hcode : p.code = Code.ofTree p.tree) :
    (Machine.start p).Lexical p.tree := by
  have hroot : (Machine.start p).evaluations.Runs .root p.tree.root :=
    ⟨_, (find?_start p .root).trans (if_pos rfl), rfl⟩
  refine ⟨holds_start p, hroot, fun id e next he hc => ?_, fun id e he _ => ?_, fun f hf s hs => ?_⟩
  · rw [find?_start] at he
    split at he
    · cases he
      cases hc
    · cases he
  · rw [find?_start] at he
    split at he
    · cases he
      rfl
    · cases he
  · obtain rfl := List.mem_singleton.1 hf
    rw [hcode, Code.ofNode_ofTree] at hs
    obtain ⟨hr, hh⟩ := hw.code_home ⟨0, .root⟩ hs
    rw [hh, hw.home_root]
    exact ⟨hr, hroot⟩

theorem Named.keeps (h : Named es f es') : es.Keeps es' := by
  obtain rfl | ⟨name, v, rfl⟩ := h
  · exact fun _ _ hr => hr
  · exact keeps_bind _ _ _

/-- The evaluations are linked as before, and the frames go on with the same code. -/
theorem Lexical.named (h : m.Lexical t) (hm : m'.Holds (Handle.Lexical t m.evaluations))
    (hn : Named m.evaluations f m'.evaluations)
    (hf : ∀ g ∈ m'.frames, ∃ g' ∈ m.frames, g'.Later g) : m'.Lexical t := by
  have hk := hn.keeps
  refine ⟨hm.mono fun _ => Handle.Lexical.mono hk, hk _ _ h.root, fun id e next he hc => ?_,
    fun id e he hc => ?_, fun g hg s hs => ?_⟩
  · obtain ⟨e', he', hd, hc'⟩ := (hn.find? id).1 e he
    rw [hd]
    exact hk.sees (h.closed id e' next he' (hc'.symm.trans hc))
  · obtain ⟨e', he', hd, hc'⟩ := (hn.find? id).1 e he
    rw [hd]
    exact h.outermost id e' he' (hc'.symm.trans hc)
  · obtain ⟨g', hg', hlater⟩ := hf g hg
    obtain ⟨hr, hruns⟩ := h.frames g' hg' s (hlater.steps ▸ hs)
    exact ⟨hr, hlater.evaluation ▸ hk _ _ hruns⟩

/-- A new evaluation runs a definition, and is linked to one whose names the definition sees. -/
theorem Lexical.begin (h : m.Lexical t)
    (hnew : m.evaluations.find? ⟨m.evaluations.size⟩ = none)
    (hm : m'.Holds (Handle.Lexical t m.evaluations)) {e : Evaluation} {closure : EvaluationId}
    (he : m'.evaluations = (m.evaluations.begin e).2) (hc : e.closure = some closure)
    (hsees : m.evaluations.Sees t e.definition closure)
    (hf : ∀ g ∈ m'.frames, (g.evaluation = (m.evaluations.begin e).1 ∧
        ∀ s ∈ g.steps.toList, t.Reaches s.node ∧ t.home s.node = e.definition) ∨
      ∃ g' ∈ m.frames, g'.Later g) : m'.Lexical t := by
  have hk : m.evaluations.Keeps m'.evaluations := he ▸ keeps_begin hnew e
  have hfind : ∀ id, m'.evaluations.find? id =
      if id = ⟨m.evaluations.size⟩ then some e else m.evaluations.find? id := fun id => by
    rw [he, Evaluations.find?_begin]
  refine ⟨hm.mono fun _ => Handle.Lexical.mono hk, hk _ _ h.root, fun id e' next he' hn => ?_,
    fun id e' he' hn => ?_, fun g hg s hs => ?_⟩
  · rw [hfind] at he'
    split at he'
    · cases he'
      rw [hc] at hn
      cases hn
      exact hk.sees hsees
    · exact hk.sees (h.closed id e' next he' hn)
  · rw [hfind] at he'
    split at he'
    · cases he'
      rw [hc] at hn
      cases hn
    · exact h.outermost id e' he' hn
  · rcases hf g hg with ⟨hev, hcode⟩ | ⟨g', hg', hlater⟩
    · obtain ⟨hr, hh⟩ := hcode s hs
      rw [hev, hh, he]
      exact ⟨hr, runs_begin e⟩
    · obtain ⟨hr, hruns⟩ := h.frames g' hg' s (hlater.steps ▸ hs)
      exact ⟨hr, hlater.evaluation ▸ hk _ _ hruns⟩

theorem Lexical.settle (h : m.Lexical t) (hin : m.InTree t)
    (hstreams : w.streams.Holds (Handle.Lexical t m.evaluations)) : (m.settle w).Lexical t := by
  have hgives : ∀ g ∈ m.frames, m.Gives (Handle.Lexical t m.evaluations) g := by
    intro g hg
    obtain ⟨e, he⟩ := Option.isSome_iff_exists.1 (hin.frames g hg)
    rw [Gives, he]
    exact ⟨hin.definitions _ e he, e, he, rfl⟩
  exact h.named (f := default) (settle_holds hstreams h.holds hgives)
    (.inl (settle_evaluations w m)) (settle_later w m)

theorem Lexical.advanced (h : m.Lexical t) (hm : m.Has (f :: below) es) : m.advanced.Lexical t := by
  have hes := hm.advanced.evaluations.trans hm.evaluations.symm
  exact h.named (f := f) h.holds.advanced (.inl hes) hm.advanced_frames

section
variable (hw : Ready w) (hr : w.streams.Regular) (h : m.Lexical w.tree) (hin : m.InTree w.tree)
  (hl : m.Linked)
include hw hr h hin hl

theorem Lexical.execute (hpass : w.pass.Holds (Handle.Lexical w.tree m.evaluations))
    (hm : m.Has (f :: below) es) (hs : s ∈ f.steps.toList)
    (he : m.advanced.execute w s = .ok (m', streams)) : m'.Lexical w.tree := by
  have ha := h.advanced hm
  have hes : m.advanced.evaluations = m.evaluations := hm.advanced.evaluations.trans hm.evaluations.symm
  obtain ⟨hreach, hruns⟩ := h.frames f (by simp [hm.frames]) s hs
  have hallows : ∀ node, s = .finish node →
      Allows w m.evaluations f.evaluation node (Handle.Lexical w.tree m.evaluations) := by
    rintro node rfl
    exact allows_lexical hw.wellFormed h.root hin.definitions hreach hruns
  have hcur : m.advanced.current = f.evaluation := (current_eq hm.advanced.frames).trans rfl
  have hholds : m'.Holds (Handle.Lexical w.tree m.evaluations) :=
    execute_holds (hes ▸ ha.holds) ⟨fun node hn => by rw [hes, hcur]; exact hallows node hn,
      fun _ _ _ _ => trivial, hr.holds, hpass⟩ he
  obtain ⟨hn, hframes⟩ | ⟨node, call, rfl, ho, hbegun, hframes⟩ := execute_frames hw hm he
  · exact h.named hholds hn hframes
  · rw [← hm.evaluations, ← (hm.pop _).1] at ho
    have hcall : call.Holds (Handle.Lexical w.tree m.evaluations) :=
      World.outcome_holds (hallows node rfl) hr.holds h.holds.evaluations (h.holds.pop _).1 ho
    obtain ⟨hdefined, hsees⟩ := hcall.sees
    have hdef := call.evaluation_definition w.tree
    refine h.begin (hl.placed.newest _ (Nat.le_refl _)) hholds hbegun (bindInputs_fields _ _ _ _).2
      (hdef.symm ▸ hsees) fun g hg => ?_
    refine (hframes g hg).imp_left ?_
    rintro rfl
    refine ⟨rfl, fun s hs => ?_⟩
    rw [Call.frame, hw.code, Code.ofCall_ofTree] at hs
    rw [hdef]
    exact hw.wellFormed.called_home hdefined hs

/-- A step keeps the machine to the scopes of the tree. -/
theorem Lexical.step (hpass : w.pass.Holds (Handle.Lexical w.tree m.evaluations))
    (hs : m.step w = some (s, m', streams)) : m'.Lexical w.tree := by
  obtain ⟨hnext, hcase⟩ := step_cases hs
  obtain ⟨f, below, hf, hn⟩ := frames_of_next? hnext
  have hm : m.Has (f :: below) m.evaluations := ⟨hf, rfl⟩
  have hmem : s ∈ f.steps.toList := Array.mem_toList_iff.2 (Array.mem_of_getElem? hn)
  obtain ⟨failure, -, rfl, rfl⟩ | ⟨m1, he, rfl⟩ := hcase
  · have ha := h.advanced hm
    exact ⟨holds_fail ha.holds failure, ha.root, ha.closed, ha.outermost, nofun⟩
  · have hin1 := hin.execute hw (h.frames f (by simp [hf]) s hmem).1 hm he
    exact (h.execute hw hr hin hl hpass hm hmem he).settle hin1 ((execute_streams he).2 hr).holds

end
end Machine
end ReactiveLang
