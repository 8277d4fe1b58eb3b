import ReactiveLang.Proofs.Eval.Linked
import ReactiveLang.Proofs.Eval.Moving

/-!
# Machines of the tree

Code is laid out for the nodes that the root reaches. A machine that holds values of such nodes only
(`Machine.InTree`) calls no others, and stays so with every step (`InTree.step`).

* `Frame.Later`, `execute_frames`, `settle_later`: the frames after a step are those before it, further
  on in their steps, and that of a call.
-/

namespace ReactiveLang

/-- The frame `f`, further on in its steps. -/
structure Frame.Later (f g : Frame) : Prop where
  kind : g.kind = f.kind
  steps : g.steps = f.steps
  evaluation : g.evaluation = f.evaluation

namespace Frame.Later

variable {f g h : Frame}

theorem refl (f : Frame) : f.Later f := ⟨rfl, rfl, rfl⟩

theorem trans (hfg : f.Later g) (hgh : g.Later h) : f.Later h :=
  ⟨hgh.kind.trans hfg.kind, hgh.steps.trans hfg.steps, hgh.evaluation.trans hfg.evaluation⟩

theorem moved (h : f.Later g) (skip takes : Nat) (values : List Value) :
    f.Later (g.moved skip takes values) := ⟨h.kind, h.steps, h.evaluation⟩

end Frame.Later

/-- Everything in the machine is about nodes that the root reaches. -/
structure Machine.InTree (t : Tree) (m : Machine) : Prop where
  holds : m.Holds (Handle.InTree t)
  definitions : ∀ id e, m.evaluations.find? id = some e → t.Reaches e.definition
  frames : ∀ f ∈ m.frames, (m.evaluations.find? f.evaluation).isSome = true

namespace Machine

variable {m m' : Machine} {w : World} {s : Step} {streams : Streams} {f : Frame}
  {below : List Frame} {es es' : Evaluations} {t : Tree}

theorem inTree_start (p : Program) : (Machine.start p).InTree p.tree := by
  refine ⟨holds_start p, fun id e he => ?_, fun f hf => ?_⟩
  · rw [find?_start] at he
    split at he
    · cases he
      exact ⟨0, .root⟩
    · cases he
  · obtain rfl := List.mem_singleton.1 hf
    exact congrArg Option.isSome (find?_start p .root)

theorem openStream_holds {ok : Handle → Prop} (h : w.streams.Holds ok) (kind : StreamKind)
    (node : NodeId) (inputs : List Value) : (openStream w kind node inputs).2.Holds ok := by
  have hcreate := h.createOrReuse kind node inputs w.pass.number w.program.config
  unfold Streams.createOrReuse at hcreate
  unfold openStream
  split
  · rename_i id hid
    rw [hid] at hcreate
    split
    · exact h
    · exact hcreate
  · rename_i hid
    rwa [hid] at hcreate

theorem execute_streams_hold {ok : Handle → Prop} (h : w.streams.Holds ok)
    (he : m.execute w s = .ok (m', streams)) : streams.Holds ok := by
  obtain rfl | ⟨kind, node, inputs, rfl⟩ := execute_opens he
  · exact h
  · exact openStream_holds h kind node inputs

theorem Named.find? (h : Named es f es') (id : EvaluationId) :
    (∀ e, es'.find? id = some e → ∃ e', es.find? id = some e' ∧ e.definition = e'.definition ∧
      e.closure = e'.closure) ∧
      ((es.find? id).isSome = true → (es'.find? id).isSome = true) := by
  obtain rfl | ⟨name, v, rfl⟩ := h
  · exact ⟨fun e he => ⟨e, he, rfl, rfl⟩, fun h => h⟩
  · rw [Evaluations.find?_bind]
    split
    · refine ⟨fun e he => ?_, fun h => by rwa [Option.isSome_map]⟩
      obtain ⟨e', he', rfl⟩ := Option.map_eq_some_iff.1 he
      exact ⟨e', he', rfl, rfl⟩
    · exact ⟨fun e he => ⟨e, he, rfl, rfl⟩, fun h => h⟩

theorem Named.size (h : Named es f es') : es'.size = es.size := by
  obtain rfl | ⟨name, v, rfl⟩ := h <;> rfl

theorem Named.isSome (h : Named es f es') (id : EvaluationId) :
    (es'.find? id).isSome = (es.find? id).isSome := by
  obtain rfl | ⟨name, v, rfl⟩ := h
  · rfl
  · rw [Evaluations.find?_bind]
    split
    · rw [Option.isSome_map]
    · rfl

theorem Named.find?_of_ne (h : Named es f es') {id : EvaluationId} (hne : id ≠ f.evaluation) :
    es'.find? id = es.find? id := by
  obtain rfl | ⟨name, v, rfl⟩ := h
  · rfl
  · rw [Evaluations.find?_bind, if_neg hne]

/-- A program whose code is that of its tree, and what a pass of it starts with. -/
structure Ready (w : World) : Prop where
  wellFormed : w.tree.WellFormed
  code : w.program.code = Code.ofTree w.tree
  pass : w.pass.Holds (Handle.InTree w.tree)
  streams : w.streams.Holds (Handle.InTree w.tree)

/-- Where the frames come from after the effect of a step: those that were there go on, and a call
puts a new one on top. -/
theorem execute_frames (hw : Ready w) (hm : m.Has (f :: below) es)
    (he : m.advanced.execute w s = .ok (m', streams)) :
    (Named m.evaluations f m'.evaluations ∧ ∀ g ∈ m'.frames, ∃ g' ∈ m.frames, g'.Later g) ∨
      ∃ node call, s = .finish node ∧
        w.outcome es f.evaluation node (f.pop (w.tree.construct node).operandCount).1 =
          .ok (.run call) ∧
        m'.evaluations = (m.evaluations.begin (call.evaluation w.tree)).2 ∧
        ∀ g ∈ m'.frames,
          g = call.frame w.program (m.evaluations.begin (call.evaluation w.tree)).1 ∨
            ∃ g' ∈ m.frames, g'.Later g := by
  have htop : ∀ skip takes values, ∃ g' ∈ m.frames, g'.Later (f.moved skip takes values) :=
    fun _ _ _ => ⟨f, by simp [hm.frames], (Frame.Later.refl f).moved _ _ _⟩
  have hbelow : ∀ g ∈ below, ∃ g' ∈ m.frames, g'.Later g := fun g hg =>
    ⟨g, by simp [hm.frames, hg], .refl g⟩
  obtain ⟨skip, takes, values, es', -, hm', hn⟩ | ⟨node, call, hs, -, ho, hm'⟩ :=
    execute_cases hw.wellFormed hw.code hm he
  · rw [← hm.evaluations, ← hm'.evaluations] at hn
    refine .inl ⟨hn, fun g hg => ?_⟩
    rw [hm'.frames] at hg
    rcases List.mem_cons.1 hg with rfl | hg
    · exact htop _ _ _
    · exact hbelow g hg
  · refine .inr ⟨node, call, hs, ho, hm'.evaluations.trans (by rw [hm.evaluations]), fun g hg => ?_⟩
    rw [hm'.frames, ← hm.evaluations] at hg
    rcases List.mem_cons.1 hg with rfl | hg
    · exact .inl rfl
    · rcases List.mem_cons.1 hg with rfl | hg
      · exact .inr (htop _ _ _)
      · exact .inr (hbelow g hg)

theorem Has.advanced_frames (hm : m.Has (f :: below) es) :
    ∀ g ∈ m.advanced.frames, ∃ g' ∈ m.frames, g'.Later g := by
  intro g hg
  rw [hm.advanced.frames] at hg
  rcases List.mem_cons.1 hg with rfl | hg
  · exact ⟨f, by simp [hm.frames], rfl, rfl, rfl⟩
  · exact ⟨g, by simp [hm.frames, hg], .refl g⟩

/-- Frames that stay when others are left go on with new values. -/
theorem settle_later (w : World) (m : Machine) :
    ∀ g ∈ (m.settle w).frames, ∃ g' ∈ m.frames, g'.Later g := by
  intro g hg
  obtain ⟨g', hg', values, rfl⟩ := settle_frames w m g hg
  exact ⟨g', hg', rfl, rfl, rfl⟩

theorem InTree.named (h : m.InTree t) (hm : m'.Holds (Handle.InTree t))
    (hn : Named m.evaluations f m'.evaluations)
    (hf : ∀ g ∈ m'.frames, ∃ g' ∈ m.frames, g'.Later g) : m'.InTree t := by
  refine ⟨hm, fun id e he => ?_, fun g hg => ?_⟩
  · obtain ⟨e', he', hd, -⟩ := (hn.find? id).1 e he
    rw [hd]
    exact h.definitions id e' he'
  · obtain ⟨g', hg', hlater⟩ := hf g hg
    rw [hlater.evaluation]
    exact (hn.find? _).2 (h.frames g' hg')

theorem InTree.begin (h : m.InTree t) (hm : m'.Holds (Handle.InTree t)) {e : Evaluation}
    (he : m'.evaluations = (m.evaluations.begin e).2) (hd : t.Reaches e.definition)
    (hf : ∀ g ∈ m'.frames, g.evaluation = (m.evaluations.begin e).1 ∨
      ∃ g' ∈ m.frames, g'.Later g) : m'.InTree t := by
  have hfind : ∀ id, m'.evaluations.find? id =
      if id = ⟨m.evaluations.size⟩ then some e else m.evaluations.find? id := fun id => by
    rw [he, Evaluations.find?_begin]
  refine ⟨hm, fun id e' he' => ?_, fun g hg => ?_⟩
  · rw [hfind] at he'
    split at he'
    · cases he'
      exact hd
    · exact h.definitions id e' he'
  · rw [hfind]
    split
    · rfl
    · rename_i hne
      obtain ⟨g', hg', hlater⟩ := (hf g hg).resolve_left hne
      rw [hlater.evaluation]
      exact h.frames g' hg'

theorem InTree.advanced (h : m.InTree t) (hm : m.Has (f :: below) es) : m.advanced.InTree t := by
  have hes := hm.advanced.evaluations.trans hm.evaluations.symm
  exact h.named (f := f) h.holds.advanced (.inl hes) hm.advanced_frames

theorem InTree.settle (hstreams : w.streams.Holds (Handle.InTree t)) (h : m.InTree t) :
    (m.settle w).InTree t := by
  have hgives : ∀ g ∈ m.frames, m.Gives (Handle.InTree t) g := by
    intro g hg
    obtain ⟨e, he⟩ := Option.isSome_iff_exists.1 (h.frames g hg)
    show t.Reaches ((m.evaluations.find? g.evaluation).getD default).definition
    rw [he]
    exact h.definitions _ e he
  exact h.named (f := default) (settle_holds hstreams h.holds hgives)
    (.inl (settle_evaluations w m)) (settle_later w m)

theorem Ready.allows (hw : Ready w) (hr : w.tree.Reaches s.node) {es : Evaluations}
    {current : EvaluationId} {node : NodeId} (hs : s = .finish node)
    (hes : ∀ id e, es.find? id = some e → w.tree.Reaches e.definition) :
    Allows w es current node (Handle.InTree w.tree) := by
  subst hs
  exact hw.wellFormed.allows hes hr

section
variable (hw : Ready w) (h : m.InTree w.tree) (hr : w.tree.Reaches s.node)
include hw h hr

/-- A call that a node makes runs a definition that the root reaches. -/
theorem InTree.call_reaches {node : NodeId} {call : Call} (hs : s = .finish node)
    (hm : m.Has (f :: below) es)
    (ho : w.outcome es f.evaluation node (f.pop (w.tree.construct node).operandCount).1 =
      .ok (.run call)) : w.tree.Reaches call.definition := by
  rw [← hm.evaluations, ← (hm.pop _).1] at ho
  have hcall : call.Holds (Handle.InTree w.tree) := World.outcome_holds
    (hw.allows hr hs h.definitions) hw.streams h.holds.evaluations (h.holds.pop _).1 ho
  refine hcall.callable call.definition ?_
  unfold Call.callable
  split <;> rfl

theorem InTree.execute (hm : m.Has (f :: below) es)
    (he : m.advanced.execute w s = .ok (m', streams)) : m'.InTree w.tree := by
  have ha := h.advanced hm
  have hholds := execute_holds (s := s) ha.holds
    ⟨fun node hs => hw.allows hr hs ha.definitions, fun _ _ _ _ => trivial, hw.streams, hw.pass⟩ he
  obtain ⟨hn, hframes⟩ | ⟨node, call, hs, ho, hes, hframes⟩ := execute_frames hw hm he
  · exact h.named hholds hn hframes
  · have hreach := h.call_reaches hw hr hs hm ho
    refine h.begin hholds hes ((call.evaluation_definition _).symm ▸ hreach) fun g hg => ?_
    exact (hframes g hg).imp_left (congrArg Frame.evaluation)

/-- A step of a node that the root reaches keeps the machine to such nodes. -/
theorem InTree.step (hs : m.step w = some (s, m', streams)) :
    m'.InTree w.tree ∧ streams.Holds (Handle.InTree w.tree) := by
  obtain ⟨hnext, hcase⟩ := step_cases hs
  obtain ⟨f', below, hf, -⟩ := frames_of_next? hnext
  obtain ⟨f, -, rfl, rfl⟩ | ⟨m1, he, rfl⟩ := hcase
  · have ha := h.advanced ⟨hf, rfl⟩
    exact ⟨⟨holds_fail ha.holds f, ha.definitions, nofun⟩, hw.streams⟩
  · have hstreams := execute_streams_hold hw.streams he
    exact ⟨InTree.settle hstreams (h.execute hw hr ⟨hf, rfl⟩ he), hstreams⟩

end

end Machine
end ReactiveLang
