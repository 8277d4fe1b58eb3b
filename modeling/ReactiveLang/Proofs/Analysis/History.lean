import ReactiveLang.Proofs.Analysis.Recall

/-!
# Answers without a history

Whatever a context was asked before, and whatever it noted on the way, it answers a query as a
fresh context does, and as the analysis of its tree does. No query runs out of fuel.

* `Settles`: in every sound context a computation ends with one answer and keeps the context sound.
* `settles_consult`: an inquiry settles on what the analysis gives.
* `settles_reply`: every query settles on the answer of the analysis.
* `reply_independent`: the reply to a query after other queries is the reply to it alone.
-/

namespace ReactiveLang.Context

variable {α β : Type} {t : Tree} {a : Analysis} {c : Context}

/-- In every sound context the computation ends with the answer, and leaves the context sound. -/
def Settles (t : Tree) (a : Analysis) (work : Consulting α) (v : α) : Prop :=
  ∀ c : Context, c.Sound t a → ∃ c', work.run c = some (v, c') ∧ c'.Sound t a

theorem settles_pure (v : α) : Settles t a (pure v) v := fun c hc => ⟨c, rfl, hc⟩

theorem Settles.bind {work : Consulting α} {rest : α → Consulting β} {v : α} {b : β}
    (h : Settles t a work v) (hrest : Settles t a (rest v) b) : Settles t a (work >>= rest) b := by
  intro c hc
  obtain ⟨now, hwork, hnow⟩ := h c hc
  obtain ⟨c', hrun, hc'⟩ := hrest now hnow
  exact ⟨c', Consulting.run_bind.2 ⟨v, now, hwork, hrun⟩, hc'⟩

/-- The end of a computation that settles. -/
theorem Settles.then {work : Consulting α} {v : α} (h : Settles t a work v) (f : α → β) :
    Settles t a (work >>= fun v => pure (f v)) (f v) :=
  h.bind (settles_pure (f v))

/-- What is kept is right, so it may be taken for the answer. -/
theorem Settles.recalling {known : Context → Option α} {keep : Context → α → Context}
    {work : Consulting α} {v : α} (h : Settles t a work v)
    (hknown : ∀ c, c.Sound t a → ∀ u, known c = some u → u = v)
    (hkeep : ∀ c, c.Sound t a → (keep c v).Sound t a) :
    Settles t a (recalling known keep work) v := by
  intro c hc
  rw [run_recalling]
  cases hf : known c with
  | some u => exact ⟨c, by rw [hknown c hc u hf], hc⟩
  | none =>
    obtain ⟨now, hrun, hnow⟩ := h c hc
    exact ⟨keep now v, by simp [hrun], hkeep now hnow⟩

theorem settles_resolve (reference : NodeId) :
    Settles t a (resolve t reference) (t.resolve reference) := fun _ hc =>
  have ⟨c', hrun, hadv⟩ := run_resolve hc reference
  ⟨c', hrun, hadv.sound⟩

/-! ## Types -/

/-- A type is the same whatever is noted, and it always comes. -/
theorem exists_settles_typeOf (t : Tree) (a : Analysis) (id : NodeId) :
    ∃ type, Settles t a (typeOf t id) type := by
  have htotal := t.recallType_total List.nodup_nil (fun _ hv => absurd hv List.not_mem_nil)
    (Nat.zero_add t.typingFuel) id
  obtain ⟨⟨type, now⟩, hfresh⟩ := htotal (fresh t.nodes.size)
  refine ⟨type, fun c hc => ?_⟩
  obtain ⟨⟨type', c'⟩, hrun⟩ := htotal c
  have hfree : ∀ v ∈ ([] : List NodeId), ∀ k type, ¬ t.DerivesIn k v type :=
    fun v hv => absurd hv List.not_mem_nil
  obtain rfl : type = type' := Tree.recallType_agrees hfree sound_fresh hc hfresh hrun
  exact ⟨c', hrun, (Tree.recallType_sound hc hrun).sound⟩

theorem settles_typesOf {types : NodeId → Ty} (h : ∀ id, Settles t a (typeOf t id) (types id))
    (ids : List NodeId) : Settles t a (typesOf t ids) (ids.map types) := by
  induction ids with
  | nil => exact settles_pure []
  | cons id rest ih => exact (h id).bind (ih.then _)

theorem typeOf_outside {id : NodeId} (h : t.nodes.size ≤ id.index) :
    ((typeOf t id).run (fresh t.nodes.size)).map Prod.fst = some .nothing := by
  rw [typeOf, Tree.typingFuel, Tree.run_recallType]
  simp only [fresh, Notes.find?_blank, Tree.typeRule_outside h]
  rfl

/-- The table of an analysis has the type that a context settles on. -/
theorem settles_typeOf (t : Tree) (a : Analysis) (id : NodeId) :
    Settles t a (typeOf t id) ((Analysis.ofTree t).typeOf id) := by
  obtain ⟨types, htypes⟩ := Classical.axiomOfChoice (exists_settles_typeOf t a)
  obtain ⟨now, htable, -⟩ := settles_typesOf htypes ((List.range t.nodes.size).map NodeId.mk)
    (fresh t.nodes.size) sound_fresh
  suffices h : (Analysis.ofTree t).typeOf id = types id by
    rw [h]
    exact htypes id
  simp only [Analysis.typeOf, Analysis.ofTree, Tree.allTypes, htable]
  rcases Nat.lt_or_ge id.index t.nodes.size with hlt | hge
  · simp [hlt]
  · obtain ⟨now', hrun, -⟩ := htypes id (fresh t.nodes.size) sound_fresh
    have hout := typeOf_outside hge
    rw [hrun, Option.map_some, Option.some.injEq] at hout
    simpa [hge] using hout.symm

/-- An inquiry settles on what the table of types gives. -/
theorem settles_consult (t : Tree) (a : Analysis) (inquiry : Inquiry α) :
    Settles t a (consult t inquiry) ((Analysis.ofTree t).given inquiry) := by
  induction inquiry with
  | answer value => exact settles_pure value
  | typeOf id next ih => exact (settles_typeOf t a id).bind (ih _)
  | resolve reference next ih => exact (settles_resolve reference).bind (ih _)

/-! ## Queries -/

theorem Sound.noteReferences (h : c.Sound t a) : (c.noteReferences a.readings).Sound t a where
  types := h.types
  resolutions := h.resolutions
  references found hf := by
    rw [Context.noteReferences, Option.some.injEq] at hf
    exact hf.symm
  dependencies := h.dependencies
  conflicts := h.conflicts

theorem Sound.noteDependencies (h : c.Sound t a) {id : NodeId} :
    (c.noteDependencies id (a.streamDependencies id)).Sound t a where
  types := h.types
  resolutions := h.resolutions
  references := h.references
  dependencies other found hf := by
    rcases Notes.find?_record hf with ⟨rfl, rfl⟩ | hf
    · rfl
    · exact h.dependencies other found hf
  conflicts := h.conflicts

theorem Sound.noteConflicts (h : c.Sound t a) {id : NodeId} :
    (c.noteConflicts id (a.conflictsOf id)).Sound t a where
  types := h.types
  resolutions := h.resolutions
  references := h.references
  dependencies := h.dependencies
  conflicts other found hf := by
    rcases Notes.find?_record hf with ⟨rfl, rfl⟩ | hf
    · rfl
    · exact h.conflicts other found hf

variable (t)

theorem settles_readings :
    Settles t (.ofTree t) (readings t) (Analysis.ofTree t).readings :=
  (settles_consult t (.ofTree t) (Inquiry.readings t t.reachable)).recalling
    (fun _ hc => hc.references) fun _ hc => hc.noteReferences

theorem settles_streamDependencies (id : NodeId) :
    Settles t (.ofTree t) (streamDependencies t id)
      ((Analysis.ofTree t).streamDependencies id) :=
  (settles_consult t (.ofTree t) (Inquiry.streamDependencies t id)).recalling
    (fun _ hc => hc.dependencies id) fun _ hc => hc.noteDependencies

theorem settles_checked (id : NodeId) :
    Settles t (.ofTree t) (checked t id) ((Analysis.ofTree t).conflictsOf id) := by
  have hfound := settles_consult t (.ofTree t) (Inquiry.findings t id)
  unfold checked Analysis.conflictsOf
  refine hfound.bind ?_
  by_cases hread : t.mustBeRead id = true
  · simp only [Analysis.tree_ofTree, hread, ↓reduceIte]
    exact (settles_readings t).then _
  · simp only [Analysis.tree_ofTree, hread]
    exact settles_pure _

theorem settles_conflictsOf (id : NodeId) :
    Settles t (.ofTree t) (conflictsOf t id) ((Analysis.ofTree t).conflictsOf id) :=
  (settles_checked t id).recalling (fun _ hc => hc.conflicts id) fun _ hc => hc.noteConflicts

theorem settles_conflictsAmong (ids : List NodeId) :
    Settles t (.ofTree t) (conflictsAmong t ids)
      (ids.flatMap (Analysis.ofTree t).conflictsOf) := by
  induction ids with
  | nil => exact settles_pure []
  | cons id rest ih => exact (settles_conflictsOf t id).bind (ih.then _)

theorem settles_reply (query : Query) :
    Settles t (.ofTree t) (reply t query) ((Analysis.ofTree t).answer query) := by
  cases query with
  | typeOf id => exact (settles_typeOf t _ id).then _
  | valueType id => exact (settles_consult t _ _).then _
  | declaredType id => exact (settles_consult t _ _).then _
  | conflictsOf id => exact (settles_conflictsOf t id).then _
  | conflicts => exact (settles_conflictsAmong t t.reachable).then _
  | callee id => exact (settles_consult t _ _).then _
  | bindingOf id => exact (settles_consult t _ _).then _
  | memberOf id => exact (settles_consult t _ _).then _
  | resolve id => exact (settles_resolve id).then _
  | referencesTo id => exact (settles_readings t).then _
  | streamDependencies id => exact (settles_streamDependencies t id).then _

theorem settles_replies (queries : List Query) :
    Settles t (.ofTree t) (replies t queries) (queries.map (Analysis.ofTree t).answer) := by
  induction queries with
  | nil => exact settles_pure []
  | cons query rest ih => exact (settles_reply t query).bind (ih.then _)

/-- Every query ends, and its reply does not depend on what was asked before: a context that has
answered any earlier queries gives the reply of a context that was asked nothing. -/
theorem reply_independent (earlier : List Query) (query : Query) :
    ∃ answers now answer later alone,
      (replies t earlier).run (fresh t.nodes.size) = some (answers, now) ∧
      (reply t query).run now = some (answer, later) ∧
      (reply t query).run (fresh t.nodes.size) = some (answer, alone) := by
  obtain ⟨now, hearlier, hnow⟩ := settles_replies t earlier (fresh t.nodes.size) sound_fresh
  obtain ⟨later, hafter, -⟩ := settles_reply t query now hnow
  obtain ⟨alone, hfresh, -⟩ := settles_reply t query (fresh t.nodes.size) sound_fresh
  exact ⟨_, now, _, later, alone, hearlier, hafter, hfresh⟩

end ReactiveLang.Context
