import ReactiveLang.Proofs.Eval.Arrivals

/-!
# Streams and their creators

`Streams.byCreator` is a map beside the list of streams, in which a call finds its stream. A stream
and its entry are made together, and nothing else touches the map.

* `Streams.Consistent`: ids are places, the map leads from each creator to its stream and to
  nothing else, and the values are in the order of their passes.
* `Consistent.createdBy?_eq`: what a call finds is the first stream of the list that it made.
* `Streams.Prolongs`: streams have stayed and have at most got more values at their ends.
* `step_consistent`, `Consistent.tick`: steps and ticks keep streams consistent.
  `step_prolongs`, `prolongs_tick`: they only prolong them.
* `step_new`: a stream that a step makes has its producer's first value, for the pass of the step.
-/

namespace ReactiveLang

namespace Streams

variable {ss ss' ss'' : Streams} {id id' : StreamId} {creator : NodeId} {x y : Stream}
  {last start : Nat}

/-! ## Consistent streams -/

structure Consistent (ss : Streams) (last : Nat) : Prop where
  /-- A stream's id is its place. -/
  id_eq : ∀ {id x}, ss.find? id = some x → x.id = id
  /-- The map leads from the creator of each stream to that stream, and from nowhere else. -/
  byCreator_iff : ∀ {creator id},
    ss.byCreator.lookup creator = some id ↔ ∃ x, ss.find? id = some x ∧ x.creator = creator
  /-- Each stream has a value, and the passes of its values ascend up to `last`. -/
  ordered : ss.Ordered last

theorem consistent_empty (last : Nat) : empty.Consistent last where
  id_eq h := by simp [find?, empty] at h
  byCreator_iff := by
    refine ⟨fun h => ?_, ?_⟩
    · cases h
    · rintro ⟨x, hx, -⟩
      simp [find?, empty] at hx
  ordered := ordered_empty last

theorem Consistent.mono {last' : Nat} (h : ss.Consistent last) (hle : last ≤ last') :
    ss.Consistent last' :=
  ⟨h.id_eq, h.byCreator_iff, h.ordered.mono hle⟩

/-- No two streams have one creator. -/
theorem Consistent.unique (h : ss.Consistent last) (hx : ss.find? id = some x)
    (hy : ss.find? id' = some y) (hc : x.creator = y.creator) : id = id' :=
  Option.some.inj ((h.byCreator_iff.2 ⟨x, hx, hc⟩).symm.trans (h.byCreator_iff.2 ⟨y, hy, rfl⟩))

/-- No two calls have one stream. -/
theorem Consistent.injective {creator' : NodeId} (h : ss.Consistent last)
    (hc : ss.byCreator.lookup creator = some id) (hc' : ss.byCreator.lookup creator' = some id) :
    creator = creator' := by
  obtain ⟨x, hx, rfl⟩ := h.byCreator_iff.1 hc
  obtain ⟨y, hy, rfl⟩ := h.byCreator_iff.1 hc'
  rw [hx] at hy
  cases hy
  rfl

/-- The stream that a call finds in the map is the first one of the list that it made. -/
theorem Consistent.createdBy?_eq (h : ss.Consistent last) (creator : NodeId) :
    ss.createdBy? creator =
      (ss.streams.find? fun x => x.creator = creator).map fun x => x.id := by
  refine Option.ext fun id => ?_
  rw [createdBy?, h.byCreator_iff]
  simp only [Option.map_eq_some_iff, Array.find?_eq_some_iff_getElem, decide_eq_true_eq]
  constructor
  · rintro ⟨x, hx, hc⟩
    obtain ⟨hlt, hplace⟩ := Array.getElem?_eq_some_iff.1 hx
    refine ⟨x, ⟨hc, id.index, hlt, hplace, fun j hj => ?_⟩, h.id_eq hx⟩
    have hy : ss.find? ⟨j⟩ = some ss.streams[j] := Array.getElem?_eq_getElem (Nat.lt_trans hj hlt)
    have hne : (⟨j⟩ : StreamId) ≠ id := fun he => Nat.ne_of_lt hj (congrArg StreamId.index he)
    simpa using fun hyc => hne (h.unique hy hx (hyc.trans hc.symm))
  · rintro ⟨x, ⟨hc, i, hi, hx, -⟩, rfl⟩
    have hfind : ss.find? ⟨i⟩ = some x := hx ▸ Array.getElem?_eq_getElem hi
    exact ⟨x, h.id_eq hfind ▸ hfind, hc⟩

theorem Consistent.create (h : ss.Consistent last) (hnone : ss.createdBy? creator = none)
    (hstart : start ≤ last) (kind : StreamKind) (inputs : List Value) (config : Config) :
    (ss.create kind creator inputs start config).2.Consistent last where
  id_eq {id x} hx := by
    rw [find?_create] at hx
    split at hx
    · rename_i hid
      cases hx
      exact congrArg StreamId.mk hid.symm
    · exact h.id_eq hx
  byCreator_iff {other id} := by
    have hlookup := ss.createdBy?_create kind creator inputs start config other
    unfold createdBy? at hlookup hnone
    rw [hlookup, find?_create]
    by_cases hother : other = creator
    · -- only the new stream has this creator
      subst hother
      rw [if_pos rfl]
      constructor
      · rintro heq
        cases heq
        exact ⟨_, if_pos rfl, rfl⟩
      · rintro ⟨x, hx, hc⟩
        split at hx
        · rename_i hid
          exact congrArg (fun i => some (StreamId.mk i)) hid.symm
        · rw [h.byCreator_iff.2 ⟨x, hx, hc⟩] at hnone
          cases hnone
    · rw [if_neg hother, h.byCreator_iff]
      split
      · rename_i hid
        rw [ss.find?_size hid]
        constructor
        · rintro ⟨x, hx, -⟩
          cases hx
        · rintro ⟨x, hx, hc⟩
          cases hx
          exact absurd hc.symm hother
      · exact Iff.rfl
  ordered := h.ordered.create hstart kind creator inputs config

theorem Consistent.configure (h : ss.Consistent last) (opened : StreamId) (inputs : List Value) :
    (ss.configure opened inputs).Consistent last where
  id_eq {id x} hx := by
    rw [find?_configure] at hx
    obtain ⟨y, hy, rfl⟩ := Option.map_eq_some_iff.1 hx
    have hid := h.id_eq hy
    split <;> exact hid
  byCreator_iff {creator id} := by
    rw [find?_configure]
    refine h.byCreator_iff.trans ?_
    constructor
    · rintro ⟨x, hx, hc⟩
      exact ⟨_, by rw [hx]; rfl, by split <;> exact hc⟩
    · rintro ⟨y, hy, hc⟩
      obtain ⟨x, hx, rfl⟩ := Option.map_eq_some_iff.1 hy
      exact ⟨x, hx, by split at hc <;> exact hc⟩
  ordered := h.ordered.configure opened inputs

theorem Consistent.tick {next : Nat} (h : ss.Consistent last) (hle : last ≤ next) (now : Float) :
    (ss.tick now next).2.Consistent next where
  id_eq {id x} hx := by
    rw [find?_tick] at hx
    obtain ⟨y, hy, rfl⟩ := Option.map_eq_some_iff.1 hx
    exact (y.tick_id now next).1.trans (h.id_eq hy)
  byCreator_iff {creator id} := by
    rw [find?_tick]
    refine h.byCreator_iff.trans ?_
    constructor
    · rintro ⟨x, hx, hc⟩
      exact ⟨_, by rw [hx]; rfl, (x.tick_id now next).2.2.trans hc⟩
    · rintro ⟨y, hy, hc⟩
      obtain ⟨x, hx, rfl⟩ := Option.map_eq_some_iff.1 hy
      exact ⟨x, hx, (x.tick_id now next).2.2.symm.trans hc⟩
  ordered := h.ordered.tick hle now

/-! ## Streams that go on -/

/-- Each stream of `old` is still at its place in `new`, with the values that it had and maybe more
after them. -/
def Prolongs (old new : Streams) : Prop :=
  ∀ id x, old.find? id = some x → ∃ y, new.find? id = some y ∧ y.kind = x.kind ∧
    y.creator = x.creator ∧ x.values.toList <+: y.values.toList

theorem prolongs_refl (ss : Streams) : ss.Prolongs ss :=
  fun _ x hx => ⟨x, hx, rfl, rfl, List.prefix_rfl⟩

theorem Prolongs.trans (h : ss.Prolongs ss') (h' : ss'.Prolongs ss'') : ss.Prolongs ss'' := by
  intro id x hx
  obtain ⟨y, hy, hkind, hcreator, hvalues⟩ := h id x hx
  obtain ⟨z, hz, hkind', hcreator', hvalues'⟩ := h' id y hy
  exact ⟨z, hz, hkind'.trans hkind, hcreator'.trans hcreator, hvalues.trans hvalues'⟩

theorem Prolongs.isSome (h : ss.Prolongs ss') (hid : (ss.find? id).isSome) :
    (ss'.find? id).isSome := by
  obtain ⟨x, hx⟩ := Option.isSome_iff_exists.1 hid
  obtain ⟨y, hy, -⟩ := h id x hx
  rw [hy]
  rfl

/-- A call keeps its stream. -/
theorem Prolongs.lookup {last' : Nat} (h : ss.Prolongs ss') (hc : ss.Consistent last)
    (hc' : ss'.Consistent last') (hid : ss.byCreator.lookup creator = some id) :
    ss'.byCreator.lookup creator = some id := by
  obtain ⟨x, hx, rfl⟩ := hc.byCreator_iff.1 hid
  obtain ⟨y, hy, -, hcreator, -⟩ := h id x hx
  exact hc'.byCreator_iff.2 ⟨y, hy, hcreator⟩

theorem prolongs_create (ss : Streams) (kind : StreamKind) (creator : NodeId)
    (inputs : List Value) (start : Nat) (config : Config) :
    ss.Prolongs (ss.create kind creator inputs start config).2 := by
  intro id x hx
  have hne : id.index ≠ ss.size := fun hid => by
    rw [ss.find?_size hid] at hx
    cases hx
  exact ⟨x, by rw [find?_create, if_neg hne, hx], rfl, rfl, List.prefix_rfl⟩

theorem prolongs_configure (ss : Streams) (opened : StreamId) (inputs : List Value) :
    ss.Prolongs (ss.configure opened inputs) := by
  intro id x hx
  refine ⟨_, by rw [find?_configure, hx]; rfl, ?_⟩
  split <;> exact ⟨rfl, rfl, List.prefix_rfl⟩

theorem prolongs_tick (ss : Streams) (now : Float) (next : Nat) :
    ss.Prolongs (ss.tick now next).2 := by
  intro id x hx
  obtain ⟨-, hkind, hcreator⟩ := x.tick_id now next
  refine ⟨_, by rw [find?_tick, hx]; rfl, hkind, hcreator, ?_⟩
  obtain ⟨-, v, hv⟩ | ⟨-, hv⟩ := x.tick_values now next
  · rw [hv, Array.toList_push]
    exact List.prefix_append _ _
  · exact (congrArg Array.toList hv).symm ▸ List.prefix_rfl

end Streams

/-! ## Steps -/

namespace Machine

variable {m m' : Machine} {w : World} {streams : Streams} {step : Step}

theorem step_consistent (h : m.step w = some (step, m', streams)) {last : Nat}
    (hc : w.streams.Consistent last) (hp : w.pass.number ≤ last) : streams.Consistent last := by
  obtain rfl | ⟨id, inputs, rfl⟩ | ⟨kind, node, inputs, hnone, rfl⟩ := step_touches h
  · exact hc
  · exact hc.configure id inputs
  · exact hc.create hnone hp kind inputs _

theorem step_prolongs (h : m.step w = some (step, m', streams)) :
    w.streams.Prolongs streams := by
  obtain rfl | ⟨id, inputs, rfl⟩ | ⟨kind, node, inputs, -, rfl⟩ := step_touches h
  · exact w.streams.prolongs_refl
  · exact w.streams.prolongs_configure id inputs
  · exact w.streams.prolongs_create kind node inputs _ _

/-- A stream that a step makes has one value, for the pass of the step. -/
theorem step_new (h : m.step w = some (step, m', streams)) {id : StreamId} {x : Stream}
    (hx : streams.find? id = some x) (hnew : w.streams.find? id = none) :
    x.values = #[⟨Clock.initial, w.pass.number⟩] := by
  obtain rfl | ⟨opened, inputs, rfl⟩ | ⟨kind, node, inputs, -, rfl⟩ := step_touches h
  · rw [hx] at hnew
    cases hnew
  · rw [Streams.find?_configure, hnew] at hx
    cases hx
  · rw [Streams.find?_create, hnew] at hx
    split at hx
    · cases hx
      rfl
    · cases hx

end Machine
end ReactiveLang
