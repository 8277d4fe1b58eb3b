import ReactiveLang.Proofs.Eval.Lexical
import ReactiveLang.Proofs.Eval.Retracing

/-!
# Where names come from

A name is bound in an evaluation by the step of a definition of that name, and the definition
stands in the scope that the evaluation runs (`step_binds`). So the value of a reference is one
that a definition around the reference has bound (`Scoped.gets`).
-/

namespace ReactiveLang

/-! ## Names of evaluations -/

namespace Evaluations

variable {es : Evaluations} {id : EvaluationId} {name : String} {v : Value}

theorem get?_bind {at_ : EvaluationId} {bound : String} {u : Value}
    (h : get? (Evaluations.bind es at_ bound u) id name = some v) :
    get? es id name = some v ∨ id = at_ ∧ name = bound ∧ v = u := by
  obtain ⟨e, he, hg⟩ := Option.bind_eq_some_iff.1 h
  rw [find?_bind] at he
  split at he
  · rename_i hid
    obtain ⟨e', he', rfl⟩ := Option.map_eq_some_iff.1 he
    by_cases hname : name = bound
    · rw [hname, Evaluation.get?, Evaluation.bind, Keyed.lookup_insert_self] at hg
      exact .inr ⟨hid, hname, (Option.some.inj hg).symm⟩
    · rw [Evaluation.get?, Evaluation.bind, Keyed.lookup_insert_of_ne hname] at hg
      exact .inl (Option.bind_eq_some_iff.2 ⟨e', he', hg⟩)
  · exact .inl (Option.bind_eq_some_iff.2 ⟨e, he, hg⟩)

theorem get?_begin {e : Evaluation} (h : get? (es.begin e).2 id name = some v) :
    get? es id name = some v ∨ id = ⟨es.size⟩ ∧ e.get? name = some v := by
  obtain ⟨e', he, hg⟩ := Option.bind_eq_some_iff.1 h
  rw [find?_begin] at he
  split at he
  · cases he
    exact .inr ⟨‹_›, hg⟩
  · exact .inl (Option.bind_eq_some_iff.2 ⟨e', he, hg⟩)

end Evaluations

namespace Machine

variable {m m' : Machine} {w : World} {s : Step} {streams : Streams}

/-- A name of a new evaluation is that of an input that is given. -/
theorem get?_bindInputs {t : Tree} {inputs : List NodeId} {arguments : List Value} {e : Evaluation}
    {name : String} {v : Value} (h : (bindInputs t inputs arguments e).get? name = some v) :
    e.get? name = some v ∨ ∃ input, (input, v) ∈ inputs.zip arguments ∧
      (t.construct input).definedName? = some name := by
  induction inputs generalizing arguments e with
  | nil =>
    rw [bindInputs] at h
    · exact .inl h
    · rintro _ _ _ _ ⟨⟩
  | cons input inputs ih =>
    cases arguments with
    | nil =>
      rw [bindInputs] at h
      · exact .inl h
      · rintro _ _ _ _ _ ⟨⟩
    | cons u rest =>
      rw [List.zip_cons_cons]
      unfold bindInputs at h
      split at h
      · rename_i bound hbound
        rcases ih h with h | ⟨other, hmem, hname⟩
        · by_cases hn : name = bound
          · subst hn
            rw [Evaluation.get?, Evaluation.bind, Keyed.lookup_insert_self] at h
            cases h
            exact .inr ⟨input, by simp, hbound⟩
          · rw [Evaluation.get?, Evaluation.bind, Keyed.lookup_insert_of_ne hn] at h
            exact .inl h
        · exact .inr ⟨other, List.mem_cons_of_mem _ hmem, hname⟩
      · rcases ih h with h | ⟨other, hmem, hname⟩
        · exact .inl h
        · exact .inr ⟨other, List.mem_cons_of_mem _ hmem, hname⟩

/-! ## Steps that bind names -/

@[simp] theorem remember_evaluations (node : NodeId) :
    (m.remember w node).evaluations = m.evaluations := by
  obtain ⟨memo, hm⟩ := m.remember_eq w node
  rw [hm]

theorem startNode_evaluations (node : NodeId) :
    (m.startNode w node).evaluations = m.evaluations := by
  obtain ⟨hstart, -⟩ | ⟨v, -, -, hstart⟩ := m.startNode_cases w node <;> rw [hstart]
  simp

theorem branch_evaluations {node : NodeId} {count : Nat} {when : Bool}
    (h : m.branch w node count when = .ok m') : m'.evaluations = m.evaluations := by
  obtain ⟨b, -, ⟨-, rfl⟩ | ⟨-, -, rfl⟩ | ⟨-, -, rfl⟩⟩ := branch_cases h <;> simp

/-- A reaction names its value after the bind that it is the value of. -/
theorem checkReaction_evaluations (m : Machine) (w : World) (node : NodeId) :
    (m.checkReaction w node).evaluations = m.evaluations ∨
      ∃ parent name v, w.tree.parent? node = some parent ∧ w.tree.isBinding parent = true ∧
        (w.tree.construct parent).definedName? = some name ∧
        w.pass.reactions.lookup node = some v ∧
        (m.checkReaction w node).evaluations =
          Evaluations.bind m.evaluations m.current name v := by
  obtain hcheck | ⟨previous, m1, hprevious, hm1, hcheck⟩ := m.checkReaction_cases w node
  · exact .inl (congrArg Machine.evaluations hcheck)
  have he : (m.checkReaction w node).evaluations = m1.evaluations := by
    obtain hcheck | ⟨_, _, _, -, hcheck⟩ := hcheck
    · rw [hcheck]
    · rw [hcheck]
      exact skip_evaluations _
  obtain rfl | ⟨name, hname, rfl⟩ := hm1
  · exact .inl he
  · unfold boundName? at hname
    split at hname
    · rename_i hparent
      obtain ⟨parent, hp, hc⟩ := Option.map_eq_some_iff.1 hparent
      cases hname
      exact .inr ⟨parent, name, previous, hp, by rw [Tree.isBinding, hc], by rw [hc]; rfl,
        hprevious, he⟩
    · cases hname

/-- What a node does next in a machine. -/
def outcomeOf (m : Machine) (w : World) (node : NodeId) : Except (ExceptionKind Value) Outcome :=
  w.outcome m.evaluations m.current node (m.pop (w.tree.construct node).operandCount).1

theorem outcomeOf_eq {f : Frame} {below : List Frame} (hf : m.frames = f :: below)
    (node : NodeId) : m.outcomeOf w node =
      w.outcome m.evaluations f.evaluation node
        (f.pop (w.tree.construct node).operandCount).1 := by
  unfold outcomeOf Machine.current Machine.pop
  rw [hf]
  rfl

/-- The next step of the machine gives the name of a definition a value, in an evaluation. -/
inductive Binds (w : World) (m : Machine) (definition : NodeId) : EvaluationId → Value → Prop where
  /-- A bind or a definition is finished. -/
  | finished {name : String} {v : Value} : m.next? = some (.finish definition) →
      m.outcomeOf w definition = .ok (.named name v) → Binds w m definition m.current v
  /-- A reaction gives the value that it had before to the name of the bind around it. -/
  | kept {reaction : NodeId} {v : Value} : m.next? = some (.check reaction) →
      w.tree.parent? reaction = some definition → w.tree.isBinding definition = true →
      w.pass.reactions.lookup reaction = some v → Binds w m definition m.current v
  /-- A call is given an input. -/
  | given {node : NodeId} {call : Call} {v : Value} : m.next? = some (.finish node) →
      m.outcomeOf w node = .ok (.run call) →
      (definition, v) ∈ (call.inputs w.tree).zip call.arguments →
      Binds w m definition ⟨m.evaluations.size⟩ v

@[simp] theorem advanced_current : m.advanced.current = m.current := by
  unfold Machine.advanced Machine.skip Machine.withFrame Machine.current
  dsimp only
  split
  · rename_i hf
    simp [hf, Frame.skip]
  · rfl

theorem outcomeOf_advanced (node : NodeId) : m.advanced.outcomeOf w node = m.outcomeOf w node := by
  cases hf : m.frames with
  | nil =>
    simp [outcomeOf, Machine.advanced, Machine.skip, Machine.withFrame, Machine.current,
      Machine.pop, hf]
  | cons f below =>
    have hm : m.Has (f :: below) m.evaluations := ⟨hf, rfl⟩
    rw [outcomeOf_eq hf, outcomeOf_eq hm.advanced.frames, advanced_evaluations]
    rfl

/-- A name was bound before the step, or the step binds it. -/
theorem perform_binds {node : NodeId} {o : Outcome} (hnext : m.next? = some (.finish node))
    (ho : m.outcomeOf w node = .ok o)
    (hp : (m.advanced.pop (w.tree.construct node).operandCount).2.perform w node o =
      .ok (m', streams))
    {id : EvaluationId} {name : String} {v : Value}
    (hg : Evaluations.get? m'.evaluations id name = some v) :
    Evaluations.get? m.evaluations id name = some v ∨ ∃ definition, m.Binds w definition id v ∧
      (w.tree.construct definition).definedName? = some name := by
  cases o with
  | keep | value | reaction | stream =>
    cases hp
    exact .inl (by simpa [advanced_evaluations] using hg)
  | named bound u =>
    cases hp
    rw [push_evaluations, Machine.bind] at hg
    simp only [pop_evaluations, pop_current, advanced_evaluations, advanced_current] at hg
    rcases Evaluations.get?_bind hg with hg | ⟨rfl, rfl, rfl⟩
    · exact .inl hg
    · exact .inr ⟨node, .finished hnext ho, World.outcome_named ho⟩
  | run call =>
    obtain ⟨m1, hm, hp⟩ := bind_eq_ok hp
    cases hp
    obtain ⟨bound, counts, -, -, -, rfl⟩ := enter_cases hm
    simp only [pop_evaluations, advanced_evaluations] at hg
    rcases Evaluations.get?_begin hg with hg | ⟨rfl, hgiven⟩
    · exact .inl hg
    · rcases get?_bindInputs hgiven with hnone | ⟨input, hmem, hname⟩
      · cases hnone
      · exact .inr ⟨input, .given hnext ho hmem, hname⟩

theorem execute_binds (hnext : m.next? = some s) (he : m.advanced.execute w s = .ok (m', streams))
    {id : EvaluationId} {name : String} {v : Value}
    (hg : Evaluations.get? m'.evaluations id name = some v) :
    Evaluations.get? m.evaluations id name = some v ∨ ∃ definition, m.Binds w definition id v ∧
      (w.tree.construct definition).definedName? = some name := by
  cases executes he with
  | start node =>
    rw [startNode_evaluations, advanced_evaluations] at hg
    exact .inl hg
  | check node =>
    obtain hes | ⟨parent, bound, previous, hparent, hbinding, hdefined, hprevious, hes⟩ :=
      m.advanced.checkReaction_evaluations w node <;>
      rw [hes, advanced_evaluations] at hg
    · exact .inl hg
    · rw [advanced_current] at hg
      rcases Evaluations.get?_bind hg with hg | ⟨rfl, rfl, rfl⟩
      · exact .inl hg
      · exact .inr ⟨parent, .kept hnext hparent hbinding hprevious, hdefined⟩
  | jump node count =>
    rw [skip_evaluations, advanced_evaluations] at hg
    exact .inl hg
  | jumpIf branched =>
    rw [branch_evaluations branched, advanced_evaluations] at hg
    exact .inl hg
  | @finish node o m1 _ outcome performed =>
    refine perform_binds hnext ((outcomeOf_advanced _).symm.trans outcome) performed ?_
    split at hg
    · rwa [remember_evaluations] at hg
    · exact hg

/-- A step gives at most one evaluation a name, or begins the evaluation of a call. -/
theorem step_evaluations (hw : Ready w) (hs : m.step w = some (s, m', streams)) :
    ∃ f below, m.frames = f :: below ∧ s ∈ f.steps.toList ∧
      (Named m.evaluations f m'.evaluations ∨ ∃ node call, s = .finish node ∧
        w.outcome m.evaluations f.evaluation node
          (f.pop (w.tree.construct node).operandCount).1 = .ok (.run call) ∧
        m'.evaluations = (m.evaluations.begin (call.evaluation w.tree)).2) := by
  obtain ⟨hnext, hcase⟩ := step_cases hs
  obtain ⟨f, below, hf, hn⟩ := frames_of_next? hnext
  refine ⟨f, below, hf, Array.mem_toList_iff.2 (Array.mem_of_getElem? hn), ?_⟩
  obtain ⟨failure, -, rfl, rfl⟩ | ⟨m1, he, rfl⟩ := hcase
  · exact .inl (.inl (advanced_evaluations m))
  · have hm : m.Has (f :: below) m.evaluations := ⟨hf, rfl⟩
    rw [settle_evaluations]
    obtain ⟨hn, -⟩ | ⟨node, call, rfl, ho, hbegun, -⟩ := execute_frames hw hm he
    · exact .inl hn
    · exact .inr ⟨node, call, rfl, ho, hbegun⟩

/-- A name was bound before a step, or the step binds it. -/
theorem step_binds (hs : m.step w = some (s, m', streams)) {id : EvaluationId} {name : String}
    {v : Value} (hg : Evaluations.get? m'.evaluations id name = some v) :
    Evaluations.get? m.evaluations id name = some v ∨ ∃ definition, m.Binds w definition id v ∧
      (w.tree.construct definition).definedName? = some name := by
  obtain ⟨hnext, ⟨failure, -, rfl, rfl⟩ | ⟨m1, he, rfl⟩⟩ := step_cases hs
  · exact .inl ((congrArg (Evaluations.get? · id name) (advanced_evaluations m)).symm.trans hg)
  · rw [settle_evaluations] at hg
    exact execute_binds hnext he hg

section
variable (hw : Ready w) (hl : m.Linked)
include hw hl

theorem Linked.keeps (hs : m.step w = some (s, m', streams)) :
    m.evaluations.Keeps m'.evaluations := by
  obtain ⟨f, below, -, -, hn | ⟨node, call, -, -, he⟩⟩ := step_evaluations hw hs
  · exact hn.keeps
  · exact he ▸ Evaluations.keeps_begin (hl.placed.newest _ (Nat.le_refl _)) _

/-- What a step binds is a name of the scope that the evaluation runs. -/
theorem Binds.runs (h : m.Lexical w.tree) (hin : m.InTree w.tree) {definition : NodeId} {id : EvaluationId} {v : Value}
    (hb : m.Binds w definition id v)
    (hs : m.step w = some (s, m', streams)) (hbegun : (m'.evaluations.find? id).isSome = true) :
    w.tree.Reaches definition ∧ m'.evaluations.Runs id (w.tree.home definition) := by
  have hk := hl.keeps hw hs
  obtain ⟨f, below, hf, hmem, hcase⟩ := step_evaluations hw hs
  obtain ⟨hreach, hruns⟩ := h.frames f (by simp [hf]) s hmem
  have hcur : m.current = f.evaluation := current_eq hf
  have hnext := (step_cases hs).1
  cases hb with
  | finished hfin _ =>
    rw [hnext] at hfin
    cases hfin
    rw [hcur]
    exact ⟨hreach, hk _ _ hruns⟩
  | @kept reaction v hcheck hparent hbinding _ =>
    rw [hnext] at hcheck
    cases hcheck
    obtain ⟨hreach', hchild⟩ := hw.wellFormed.parent_reaches hreach hparent
    have hhome : w.tree.home (Step.check reaction).node = w.tree.home definition := by
      rw [hw.wellFormed.home_child hreach' hchild, Tree.scopeOf?_of_isBinding hbinding]
      rfl
    rw [hcur]
    exact ⟨hreach', hhome ▸ hk _ _ hruns⟩
  | @given node call v hfin ho hgiven =>
    rw [hnext] at hfin
    cases hfin
    -- the call has begun, as its evaluation is there
    obtain hn | ⟨node', call', heq, ho', he⟩ := hcase
    · obtain ⟨e, he⟩ := Option.isSome_iff_exists.1 hbegun
      obtain ⟨e', he', -⟩ := (hn.find? _).1 e he
      rw [hl.placed.newest _ (Nat.le_refl _)] at he'
      cases he'
    · cases heq
      rw [outcomeOf_eq hf, ho'] at ho
      cases ho
      have hdefined := hin.call_reaches hw hreach rfl ⟨hf, rfl⟩ ho'
      have hinput : definition ∈ w.tree.inputsOf call.definition := by
        have hgiven := (List.of_mem_zip hgiven).1
        unfold Call.inputs at hgiven
        split at hgiven
        · cases hgiven
        · exact hgiven
      refine ⟨hdefined.input hinput, ?_⟩
      rw [hw.wellFormed.input_home hdefined hinput, he, ← call.evaluation_definition w.tree]
      exact Evaluations.runs_begin _

end

/-! ## Names that are seen -/

/-- Along the links of an evaluation, a name is found in a scope within `outer`, or the evaluation
of `outer` has not bound it. -/
theorem Lexical.chain_cases {t : Tree} (h : m.Lexical t) (hl : m.Linked) (hw : t.WellFormed)
    (name : String) {outer : NodeId} {fuel : Nat} {id : EvaluationId} {inner : NodeId}
    (hfuel : id.index < fuel) (hruns : m.evaluations.Runs id inner)
    (hencloses : t.Encloses outer inner)
    (hanchored : ∀ scope, t.Encloses scope inner → t.Anchored scope) :
    let chain := m.evaluations.chainFrom fuel id
    (∃ v, chain.findSome? (Evaluations.get? m.evaluations · name) = some v ∧
      ∃ found ∈ chain, ∃ scope, m.evaluations.Runs found scope ∧ t.Encloses scope inner ∧
        t.Encloses outer scope ∧ Evaluations.get? m.evaluations found name = some v) ∨
      ∃ found ∈ chain, m.evaluations.Runs found outer ∧
        Evaluations.get? m.evaluations found name = none := by
  induction fuel generalizing id inner with
  | zero => exact absurd hfuel (Nat.not_lt_zero _)
  | succ fuel ih =>
    obtain ⟨e, he, rfl⟩ := hruns
    have hruns : m.evaluations.Runs id e.definition := ⟨e, he, rfl⟩
    have hmem : id ∈ m.evaluations.chainFrom (fuel + 1) id := by
      unfold Evaluations.chainFrom
      split <;> simp
    cases hg : Evaluations.get? m.evaluations id name with
    | some v =>
      refine .inl ⟨v, ?_, id, hmem, e.definition, hruns, .refl, hencloses, hg⟩
      unfold Evaluations.chainFrom
      split <;> simp [hg]
    | none =>
      have houter : outer = e.definition → ∃ found ∈ m.evaluations.chainFrom (fuel + 1) id,
          m.evaluations.Runs found outer ∧ Evaluations.get? m.evaluations found name = none := by
        rintro rfl
        exact ⟨id, hmem, hruns, hg⟩
      cases hc : e.closure with
      | none =>
        refine .inr (houter ?_)
        rw [h.outermost id e he hc] at hencloses ⊢
        exact hw.encloses_root hencloses
      | some next =>
        cases hencloses with
        | refl => exact .inr (houter rfl)
        | around hencloses =>
          have hnext := (h.closed id e next he hc).runs (hanchored _ .refl)
          have hlt := hl.placed.links id e next he hc
          have hchain : m.evaluations.chainFrom (fuel + 1) id =
              id :: m.evaluations.chainFrom fuel next := by
            rw [Evaluations.chainFrom, he, Option.bind_some, hc]
          rw [hchain]
          rcases ih (by omega) hnext hencloses (fun scope hs => hanchored scope (.around hs)) with
            ⟨v, hv, found, hin, scope, hruns, hs, ho, hf⟩ | ⟨found, hin, hruns, hf⟩
          · refine .inl ⟨v, ?_, found, List.mem_cons_of_mem _ hin, scope, hruns, .around hs, ho, hf⟩
            rw [List.findSome?_cons, hg]
            exact hv
          · exact .inr ⟨found, List.mem_cons_of_mem _ hin, hruns, hf⟩

/-! ## Whole runs -/

/-- What a program's machine is after so many steps of a pass. It follows the scopes of the tree,
and each name in it was given its value by an earlier step of a definition of the name, in the
scope that the evaluation runs. -/
structure Scoped (w : World) (m : Nat → Machine) (count : Nat) : Prop where
  lexical : (m count).Lexical w.tree
  inTree : (m count).InTree w.tree
  linked : (m count).Linked
  bound : ∀ id name v, Evaluations.get? (m count).evaluations id name = some v →
    ∃ earlier < count, ∃ definition, (m earlier).Binds w definition id v ∧
      (w.tree.construct definition).definedName? = some name ∧ w.tree.Reaches definition ∧
      (m count).evaluations.Runs id (w.tree.home definition)

theorem Lexical.keeps_start {p : Program} (h : m.Lexical p.tree) :
    (Machine.start p).evaluations.Keeps m.evaluations := by
  rintro id definition ⟨e, he, rfl⟩
  rw [find?_start] at he
  split at he
  · rename_i hid
    cases he
    exact hid ▸ h.root
  · cases he

section
variable (hw : Ready w) (hr : w.streams.Regular)
  (hpass : w.pass.Holds (Handle.Lexical w.tree (Machine.start w.program).evaluations))
include hw hr hpass

theorem Scoped.step {machines : Nat → Machine} {count : Nat} (h : Scoped w machines count)
    (hs : (machines count).step w = some (s, machines (count + 1), streams)) :
    Scoped w machines (count + 1) := by
  have hk := h.linked.keeps hw hs
  have hrooted : w.pass.Holds Handle.Rooted := hpass.mono fun _ hh id hid => by
    obtain ⟨e, he⟩ := Option.isSome_iff_exists.1 (hh.begun hid)
    rw [find?_start] at he
    split at he
    · assumption
    · cases he
  refine ⟨h.lexical.step hw hr h.inTree h.linked (hpass.mono fun _ => Handle.Lexical.mono ?_) hs,
    (h.inTree.step hw ?_ hs).1, (step_linked h.linked hrooted hr hs).1, fun id name v hg => ?_⟩
  · exact Lexical.keeps_start h.lexical
  · obtain ⟨f, below, hf, hmem, -⟩ := step_evaluations hw hs
    exact (h.lexical.frames f (by simp [hf]) s hmem).1
  · rcases step_binds hs hg with hg | ⟨definition, hb, hname⟩
    · obtain ⟨earlier, hlt, definition, hb, hname, hreach, hruns⟩ := h.bound id name v hg
      exact ⟨earlier, Nat.lt_succ_of_lt hlt, definition, hb, hname, hreach, hk _ _ hruns⟩
    · obtain ⟨e, he, -⟩ := Option.bind_eq_some_iff.1 hg
      obtain ⟨hreach, hruns⟩ := hb.runs hw h.linked h.lexical h.inTree hs (by rw [he]; rfl)
      exact ⟨count, Nat.lt_succ_self _, definition, hb, hname, hreach, hruns⟩

/-- Every machine of a pass follows the scopes of the tree. -/
theorem Retraces.scoped {count : Nat} {steps : Nat → Option Step}
    (h : (Machine.start w.program).Retraces w count steps) {i : Nat} (hi : i ≤ count) :
    Scoped w ((Machine.start w.program).after w) i := by
  induction i with
  | zero =>
    refine ⟨lexical_start hw.wellFormed hw.code, inTree_start _, linked_start _,
      fun id name v hg => ?_⟩
    obtain ⟨e, he, hg⟩ := Option.bind_eq_some_iff.1 hg
    rw [after, find?_start] at he
    split at he
    · cases he
      cases hg
    · cases he
  | succ i ih =>
    obtain ⟨st, -, hs⟩ := h i hi
    exact (ih (Nat.le_of_succ_le hi)).step hw hr hpass hs

end

/-- The next step of the machine finishes a node with a value. -/
structure Gets (w : World) (m : Machine) (node : NodeId) (v : Value) : Prop where
  next : m.next? = some (.finish node)
  outcome : m.outcomeOf w node = .ok (.value v)

/-- Where no other definition of the name stands between a reference and a definition around it,
what the reference gets is a value that the definition has bound, unless its scope's evaluation has
not bound the name yet. -/
theorem Scoped.gets {machines : Nat → Machine} {count : Nat} (h : Scoped w machines count)
    (hw : w.tree.WellFormed) {reference definition : NodeId} {name : String} {found : Definition}
    {v : Value} (hget : (machines count).Gets w reference v)
    (hc : w.tree.construct reference = .reference name)
    (hr : w.tree.resolve reference = some found) (hn : found.node? = some definition)
    (hclear : w.tree.Clear reference definition)
    (hanchored : ∀ scope, w.tree.Encloses scope (w.tree.home reference) → w.tree.Anchored scope) :
    let es := (machines count).evaluations
    ∃ id ∈ es.chain (machines count).current, es.Runs id (w.tree.home definition) ∧
      ((∃ earlier < count, (machines earlier).Binds w definition id v) ∨
        Evaluations.get? es id name = none) := by
  intro es
  obtain ⟨f, below, hf, hnext⟩ := frames_of_next? hget.next
  obtain ⟨hreach, hruns⟩ := h.lexical.frames f (by simp [hf]) _
    (Array.mem_toList_iff.2 (Array.mem_of_getElem? hnext))
  obtain ⟨name', hc', hname, -, hencloses⟩ := hw.resolve_node hreach hr hn
  obtain rfl : name = name' := by
    have heq := hc.symm.trans hc'
    cases heq
    rfl
  have hlookup : World.lookup es f.evaluation name = .ok v := by
    have ho := hget.outcome
    rw [outcomeOf_eq hf] at ho
    unfold World.outcome at ho
    rw [hc] at ho
    obtain ⟨u, hu, huv⟩ := map_eq_ok ho
    cases huv
    exact hu
  rw [current_eq hf]
  obtain ⟨u, hu, id, hin, scope, hid, hinner, houter, hg⟩ | ⟨id, hin, hid, hg⟩ :=
    h.lexical.chain_cases h.linked hw name
      (h.linked.placed.frames f (by simp [hf])) hruns hencloses hanchored
  · have hresolve : es.resolve f.evaluation name = some u := hu
    rw [World.lookup, hresolve] at hlookup
    cases hlookup
    obtain ⟨earlier, hlt, other, hb, hother, hreach', hruns'⟩ := h.bound id name _ hg
    obtain rfl : w.tree.home other = scope := hruns'.unique hid
    obtain rfl : other = definition :=
      hclear other hreach' (hother.trans hname.symm) hinner houter
    exact ⟨id, hin, hid, .inl ⟨earlier, hlt, hb⟩⟩
  · exact ⟨id, hin, hid, .inr hg⟩

end Machine
end ReactiveLang
