import ReactiveLang.Analysis.Query
import ReactiveLang.Proofs.Eval.Reaching
import ReactiveLang.Proofs.Syntax.Branches

/-!
# Where definitions were made

The body of a definition runs after the definition was made, and then control is no longer in the
branches that the definition stands in. `Tree.Settled` says that it is told of the conditions of
these branches, and of those of the definitions around, that they have come out for the branch. If
it is told so of every definition when it is made, all that a machine can call is settled
(`Settled.step`).

The members of a structure and, in a program without conflicts, conversions can be called before
they are made. They are in no branch of their scope (`WellFormed.settled_member`,
`Placed.settled_conversion`).
-/

namespace ReactiveLang

namespace Tree

variable {t : Tree}

/-! ## Places of conversions -/

/-- Every conversion stands in the program's block or in a structure's body. -/
def Placed (t : Tree) : Prop :=
  ∀ id input output body, t.Reaches id → t.construct id = .conversionDef input output body →
    ∃ block, t.parent? id = some block ∧
      (block = t.programBlock ∨ t.isStructureBody block = true)

/-- In a program without conflicts no conversion is misplaced. -/
theorem WellFormed.placed (w : t.WellFormed) (h : (Analysis.ofTree t).conflicts = []) :
    t.Placed := by
  intro id input output body hr hc
  have hnone : (Analysis.ofTree t).conflictsOf id = [] :=
    List.flatMap_eq_nil_iff.1 h id (w.mem_reachable hr)
  have hfindings : (Analysis.ofTree t).given (Inquiry.findings t id) = [] := by
    unfold Analysis.conflictsOf at hnone
    dsimp only at hnone
    split at hnone
    · exact (List.append_eq_nil_iff.1 hnone).1
    · exact hnone
  unfold Inquiry.findings at hfindings
  rw [hc] at hfindings
  have hplace : t.placementConflicts id = [] := (List.append_eq_nil_iff.1 hfindings).2
  unfold placementConflicts at hplace
  dsimp only at hplace
  split at hplace
  · rename_i hallowed
    obtain ⟨block, hp, hb⟩ := (Option.any_eq_true _ _).1 hallowed
    exact ⟨block, hp, by simpa using hb⟩
  · cases hplace

/-! ## Settled definitions -/

/-- It is told of the conditions around a definition, and around those it is in, that they have come
out for the branch. -/
def Settled (t : Tree) (told : NodeId → NodeId → Bool → Prop) (definition : NodeId) : Prop :=
  ∀ outer, t.Encloses outer definition → ∀ condition truth, t.Guarded condition truth outer →
    told outer condition truth

variable {told : NodeId → NodeId → Bool → Prop} {definition : NodeId}

theorem settled_of_home
    (hown : ∀ condition truth, t.Guarded condition truth definition →
      told definition condition truth)
    (h : t.Settled told (t.home definition)) : t.Settled told definition := by
  intro outer he
  cases he with
  | refl => exact hown
  | around he => exact h outer he

theorem Encloses.trans {outer middle inner : NodeId} (h : t.Encloses outer middle)
    (h' : t.Encloses middle inner) : t.Encloses outer inner := by
  induction h' with
  | refl => exact h
  | around _ ih => exact .around ih

theorem Settled.of_encloses {outer : NodeId} (h : t.Settled told definition)
    (he : t.Encloses outer definition) : t.Settled told outer :=
  fun other ho => h other (ho.trans he)

/-- In no branch of its scope, a definition is settled when that scope is. -/
theorem settled_of_free (hfree : ∀ condition truth, ¬ t.Guarded condition truth definition)
    (h : t.Settled told (t.home definition)) : t.Settled told definition :=
  settled_of_home (fun condition truth hg => absurd hg (hfree condition truth)) h

section
variable (w : t.WellFormed)
include w

theorem WellFormed.settled_root : t.Settled told t.root := by
  intro outer he condition truth hg
  rw [w.encloses_root he] at hg
  exact absurd hg w.not_guarded_root

/-- The statements of a structure's body are settled when the structure is. -/
theorem WellFormed.settled_structureStatement (hr : t.Reaches definition) {statement : NodeId}
    (hs : statement ∈ t.structureStatements definition) (h : t.Settled told definition) :
    t.Settled told statement := by
  obtain ⟨hhome, hbody⟩ := w.structureStatement_home hr hs
  refine settled_of_free (fun condition truth => ?_) (hhome ▸ h)
  unfold structureStatements at hs
  split at hs
  · rename_i name inputs block hc
    have hblock : t.Reaches block := hr.body (by rw [bodyOf?, hc])
    rw [w.parent_child _ _ hblock (mem_children_of_statement hs).1] at hbody
    exact w.not_guarded_statement hblock hs (.inr (by simpa using hbody))
  · cases hs

/-- The members of a structure are settled when the structure is. -/
theorem WellFormed.settled_member (hr : t.Reaches definition) {name : String} {member : NodeId}
    (hm : t.structureMember? definition name = some member) (h : t.Settled told definition) :
    t.Settled told member := by
  have hhome := w.member_home hr hm
  unfold structureMember? at hm
  split at hm
  · rename_i inputs body hc
    rcases Option.or_eq_some_iff.1 hm with hm | ⟨-, hm⟩
    · refine settled_of_free (fun condition truth => ?_) (hhome ▸ h)
      have hchild : member ∈ t.children definition := by
        rw [children, hc]
        exact List.mem_append_left _ (List.mem_of_find?_eq_some hm)
      refine not_guarded_of_scope (w.parent_child _ _ hr hchild) ?_
      rw [scopeOf?, hc]
      rfl
    · exact w.settled_structureStatement hr (List.mem_of_find?_eq_some hm) h
  · cases hm

/-- A conversion that is found from a node is settled when the node's scope is, and the structure of
the value that is converted. -/
theorem WellFormed.settled_conversion (hplaced : t.Placed) {node : NodeId} (hr : t.Reaches node)
    {v : Value} {target type : Ty}
    (hc : t.conversion? v.typeOf target node = some ⟨.defined definition, type⟩)
    (hin : v.Holds (Handle.InTree t))
    (hv : ∀ object, v = .instanceOf object → t.Settled told object.definition)
    (h : t.Settled told (t.home node)) : t.Settled told definition := by
  -- the conversion is a statement of the structure that is converted, or of a block around the node
  obtain ⟨⟨taken, given, body, hdef⟩, ⟨structureDef, name, hm, hs⟩ | ⟨block, ha, hs⟩⟩ :=
    conversion?_place hc
  · obtain ⟨object, rfl, rfl⟩ := Value.instanceOf_of_mem_members hm
    have hreach : t.Reaches object.definition := ((Value.holds_instanceOf object).1 hin).1
    exact w.settled_structureStatement hreach hs (hv object rfl)
  · have hblock : t.Reaches block := w.ancestorsFrom_reaches hr _ ha
    obtain ⟨hchild, -⟩ := mem_children_of_statement hs
    obtain ⟨parent, hp, hplace⟩ := hplaced definition taken given body (hblock.child hchild) hdef
    rw [w.parent_child _ _ hblock hchild] at hp
    cases hp
    exact settled_of_free (fun condition truth => w.not_guarded_statement hblock hs hplace)
      (h.of_encloses (w.encloses_ancestor hr ha hchild))

end
end Tree

/-! ## Settled machines -/

/-- A definition that the pointer names is in the tree, and settled. -/
def Handle.Settled (t : Tree) (told : NodeId → NodeId → Bool → Prop) : Handle → Prop
  | .callable c => ∀ definition, c.definition? = some definition →
      t.Reaches definition ∧ t.Settled told definition
  | .instanceOf definition _ => t.Reaches definition ∧ t.Settled told definition
  | .stream _ | .failure => True

theorem Handle.Settled.inTree {t : Tree} {told : NodeId → NodeId → Bool → Prop} {h : Handle}
    (hs : h.Settled t told) : h.InTree t := by
  cases h with
  | callable c => exact fun definition hd => (hs definition hd).1
  | instanceOf definition evaluation => exact hs.1
  | stream | failure => trivial

open Machine

variable {told : NodeId → NodeId → Bool → Prop} {w : World}

/-- The pointers that a node of the tree makes name settled definitions, if its scope is settled and
it is told of its own conditions. -/
theorem allows_settled (hw : w.tree.WellFormed) (hplaced : w.tree.Placed) {es : Evaluations}
    (hes : ∀ id e, es.find? id = some e →
      w.tree.Reaches e.definition ∧ w.tree.Settled told e.definition)
    {current : EvaluationId} {node : NodeId} (hr : w.tree.Reaches node)
    (hown : ∀ condition truth, w.tree.Guarded condition truth node → told node condition truth)
    (hhome : w.tree.Settled told (w.tree.home node)) :
    Allows w es current node (Handle.Settled w.tree told) where
  function := by rintro - - - - - _ ⟨⟩; exact ⟨hr, Tree.settled_of_home hown hhome⟩
  structureDef := by rintro - - - - _ ⟨⟩; exact ⟨hr, Tree.settled_of_home hown hhome⟩
  conversionDef := by rintro - - - - _ ⟨⟩; exact ⟨hr, Tree.settled_of_home hown hhome⟩
  memberFunction := by
    rintro definition e name member f inputs output body ⟨hd, hs⟩ hm - _ ⟨⟩
    exact ⟨hd.member hm, hw.settled_member hd hm hs⟩
  memberStructure := by
    rintro definition e name member f inputs body ⟨hd, hs⟩ hm - _ ⟨⟩
    exact ⟨hd.member hm, hw.settled_member hd hm hs⟩
  this := fun id e he _ => hes id e he
  conversion := by
    rintro v target definition type hc hv _ ⟨⟩
    have htree : v.Holds (Handle.InTree w.tree) := hv.mono fun _ => Handle.Settled.inTree
    have hobject : ∀ object, v = .instanceOf object → w.tree.Settled told object.definition := by
      rintro object rfl
      exact ((Value.holds_instanceOf object).1 hv).1.2
    refine ⟨?_, hw.settled_conversion hplaced hr hc htree hobject hhome⟩
    have hallows : Allows w es current node (Handle.InTree w.tree) :=
      hw.allows (fun id e he => (hes id e he).1) hr
    exact hallows.conversion v target definition type hc htree definition rfl

namespace Machine

/-- All that the machine runs, and can call, is settled. -/
structure Settled (t : Tree) (told : NodeId → NodeId → Bool → Prop) (m : Machine) : Prop where
  holds : m.Holds (Handle.Settled t told)
  definitions : ∀ id e, m.evaluations.find? id = some e →
    t.Reaches e.definition ∧ t.Settled told e.definition
  frames : ∀ f ∈ m.frames, ∀ s ∈ f.steps.toList,
    t.Reaches s.node ∧ t.Settled told (t.home s.node)

variable {m m' : Machine} {s : Step} {streams : Streams} {f : Frame} {below : List Frame}
  {es : Evaluations} {t : Tree}

theorem settled_start {p : Program} (hw : p.tree.WellFormed) (hcode : p.code = Code.ofTree p.tree) :
    (start p).Settled p.tree told := by
  have hroot : p.tree.Reaches p.tree.root := ⟨0, .root⟩
  refine ⟨holds_start p, fun id e he => ?_, fun f hf s hs => ?_⟩
  · rw [find?_start] at he
    split at he
    · cases he
      exact ⟨hroot, hw.settled_root⟩
    · cases he
  · obtain rfl := List.mem_singleton.1 hf
    rw [hcode, Code.ofNode_ofTree] at hs
    obtain ⟨hr, hh⟩ := hw.code_home hroot hs
    rw [hh, hw.home_root]
    exact ⟨hr, hw.settled_root⟩

/-- The evaluations are those as before, and the frames go on with the same code. -/
theorem Settled.named (h : m.Settled t told) (hm : m'.Holds (Handle.Settled t told))
    (hn : Named m.evaluations f m'.evaluations)
    (hf : ∀ g ∈ m'.frames, ∃ g' ∈ m.frames, g'.Later g) : m'.Settled t told := by
  refine ⟨hm, fun id e he => ?_, fun g hg s hs => ?_⟩
  · obtain ⟨e', he', hd, -⟩ := (hn.find? id).1 e he
    rw [hd]
    exact h.definitions id e' he'
  · obtain ⟨g', hg', hlater⟩ := hf g hg
    exact h.frames g' hg' s (hlater.steps ▸ hs)

/-- A new evaluation runs a settled definition. -/
theorem Settled.begin (h : m.Settled t told) (hm : m'.Holds (Handle.Settled t told)) {e : Evaluation}
    (he : m'.evaluations = (m.evaluations.begin e).2)
    (hd : t.Reaches e.definition ∧ t.Settled told e.definition)
    (hf : ∀ g ∈ m'.frames,
      (∀ s ∈ g.steps.toList, t.Reaches s.node ∧ t.home s.node = e.definition) ∨
        ∃ g' ∈ m.frames, g'.Later g) : m'.Settled t told := by
  refine ⟨hm, fun id e' he' => ?_, fun g hg s hs => ?_⟩
  · rw [he, Evaluations.find?_begin] at he'
    split at he'
    · cases he'
      exact hd
    · exact h.definitions id e' he'
  · rcases hf g hg with hcode | ⟨g', hg', hlater⟩
    · obtain ⟨hr, hh⟩ := hcode s hs
      exact ⟨hr, hh ▸ hd.2⟩
    · exact h.frames g' hg' s (hlater.steps ▸ hs)

/-- The next step runs a node whose scope is settled. -/
theorem Settled.next (h : m.Settled t told) (hn : m.next? = some s) :
    t.Reaches s.node ∧ t.Settled told (t.home s.node) := by
  obtain ⟨f, below, hf, hstep⟩ := frames_of_next? hn
  exact h.frames f (by simp [hf]) s (Array.mem_toList_iff.2 (Array.mem_of_getElem? hstep))

theorem Settled.settle (hr : w.streams.Regular) (hin : m.InTree t) (h : m.Settled t told) :
    (m.settle w).Settled t told := by
  have hgives : ∀ g ∈ m.frames, m.Gives (Handle.Settled t told) g := by
    intro g hg
    obtain ⟨e, he⟩ := Option.isSome_iff_exists.1 (hin.frames g hg)
    rw [Gives, he]
    exact h.definitions _ e he
  exact h.named (f := default) (settle_holds hr.holds h.holds hgives)
    (.inl (settle_evaluations w m)) (settle_later w m)

section
variable (hw : Ready w) (hr : w.streams.Regular) (hplaced : w.tree.Placed)
  (hpass : w.pass.Holds (Handle.Settled w.tree told)) (h : m.Settled w.tree told)
  (hown : ∀ node, s = .finish node → ∀ condition truth, w.tree.Guarded condition truth node →
    told node condition truth)
include hw hr hplaced hpass h hown

theorem Settled.execute (hm : m.Has (f :: below) es) (hs : s ∈ f.steps.toList)
    (he : m.advanced.execute w s = .ok (m', streams)) : m'.Settled w.tree told := by
  obtain ⟨hreach, hhome⟩ := h.frames f (by simp [hm.frames]) s hs
  have hallows : ∀ node, s = .finish node →
      Allows w m.evaluations f.evaluation node (Handle.Settled w.tree told) := by
    rintro node rfl
    exact allows_settled hw.wellFormed hplaced h.definitions hreach (hown node rfl) hhome
  have hes : m.advanced.evaluations = m.evaluations := hm.advanced.evaluations.trans hm.evaluations.symm
  have hcurrent : m.advanced.current = f.evaluation := (current_eq hm.advanced.frames).trans rfl
  have hholds : m'.Holds (Handle.Settled w.tree told) :=
    execute_holds h.holds.advanced ⟨fun node hn => by rw [hes, hcurrent]; exact hallows node hn,
      fun _ _ _ _ => trivial, hr.holds, hpass⟩ he
  obtain ⟨hn, hframes⟩ | ⟨node, call, rfl, ho, hbegun, hframes⟩ := execute_frames hw hm he
  · exact h.named hholds hn hframes
  · rw [← hm.evaluations, ← (hm.pop _).1] at ho
    have hcall : call.Holds (Handle.Settled w.tree told) :=
      World.outcome_holds (hallows node rfl) hr.holds h.holds.evaluations (h.holds.pop _).1 ho
    have hdefined : w.tree.Reaches call.definition ∧ w.tree.Settled told call.definition := by
      refine hcall.callable call.definition ?_
      unfold Call.callable
      split <;> rfl
    have hdef := call.evaluation_definition w.tree
    refine h.begin hholds hbegun (hdef.symm ▸ hdefined) fun g hg => ?_
    -- the new frame is in the code of the definition; the others go on with their own
    refine (hframes g hg).imp_left ?_
    rintro rfl s hs
    rw [Call.frame, hw.code, Code.ofCall_ofTree] at hs
    rw [hdef]
    exact hw.wellFormed.called_home hdefined.1 hs

/-- A step keeps what can be called settled, if it is told of the conditions around a definition
that it makes. -/
theorem Settled.step (hin : m.InTree w.tree) (hs : m.step w = some (s, m', streams)) :
    m'.Settled w.tree told := by
  obtain ⟨hnext, hcase⟩ := step_cases hs
  obtain ⟨f, below, hf, hn⟩ := frames_of_next? hnext
  have hm : m.Has (f :: below) m.evaluations := ⟨hf, rfl⟩
  have hmem : s ∈ f.steps.toList := Array.mem_toList_iff.2 (Array.mem_of_getElem? hn)
  obtain ⟨failure, -, rfl, rfl⟩ | ⟨m1, he, rfl⟩ := hcase
  · refine ⟨holds_fail h.holds.advanced failure, fun id e he => h.definitions id e ?_, nofun⟩
    rwa [← hm.advanced.evaluations]
  · have hin1 := hin.execute hw (h.next hnext).1 hm he
    exact (h.execute hw hr hplaced hpass hown hm hmem he).settle ((execute_streams he).2 hr) hin1

end
end Machine
end ReactiveLang
