import ReactiveLang.Ascending
import ReactiveLang.Proofs.Eval.Steps

/-!
# Values that ticks add

A stream begins with one value; all others come from ticks, each marked with the pass that may read
it first.

* `step_opens`, `step_touches`: the only thing a step does to the streams is to open one, which is
  there or is made.
* `Streams.Arrived`: a stream has a value that is not its first. Steps add none (`step_arrived`), a
  tick adds those that it tells of (`arrived_tick`, `mem_tick`).
* `Streams.Ordered`: later values are for later passes, so a pass reads the values up to its own
  (`Ordered.visible_getElem?`).
-/

namespace ReactiveLang

namespace Streams

variable {ss ss' : Streams} {id : StreamId} {i pass : Nat}

/-! ## Values after the first -/

/-- The stream has an `i`th value after its first one, which passes from `pass` on may read. -/
def Arrived (ss : Streams) (id : StreamId) (i pass : Nat) : Prop :=
  0 < i ∧ ∃ x v, ss.find? id = some x ∧ x.values[i]? = some v ∧ v.pass = pass

/-- The stream has got its `i`th value between `ss` and `ss'`, and no other. -/
def Appends (ss ss' : Streams) (id : StreamId) (i : Nat) : Prop :=
  ∃ x y v, ss.find? id = some x ∧ ss'.find? id = some y ∧ x.values.size = i ∧
    y.values = x.values.push v

/-- Each stream has a first value, later values are for later passes, and none is for a pass after
`last`. -/
def Ordered (ss : Streams) (last : Nat) : Prop :=
  ∀ id x, ss.find? id = some x → 0 < x.values.size ∧
    (x.values.toList.Pairwise fun u v => u.pass ≤ v.pass) ∧ ∀ v ∈ x.values, v.pass ≤ last

theorem not_arrived_empty : ¬ Streams.empty.Arrived id i pass := by
  rintro ⟨-, x, v, hx, -⟩
  simp [find?, empty] at hx

theorem ordered_empty (last : Nat) : Streams.empty.Ordered last := by
  intro id x hx
  simp [find?, empty] at hx

theorem Ordered.mono {last last' : Nat} (h : ss.Ordered last) (hle : last ≤ last') :
    ss.Ordered last' := by
  intro id x hx
  obtain ⟨h1, h2, h3⟩ := h id x hx
  exact ⟨h1, h2, fun v hv => Nat.le_trans (h3 v hv) hle⟩

/-- A value that has arrived belongs to one pass. -/
theorem Arrived.unique {pass' : Nat} (h : ss.Arrived id i pass) (h' : ss.Arrived id i pass') :
    pass' = pass := by
  obtain ⟨-, x, v, hx, hv, rfl⟩ := h
  obtain ⟨-, x', v', hx', hv', rfl⟩ := h'
  rw [hx] at hx'
  cases hx'
  rw [hv] at hv'
  cases hv'
  rfl

theorem Arrived.le {last : Nat} (h : ss.Arrived id i pass) (ho : ss.Ordered last) :
    pass ≤ last := by
  obtain ⟨-, x, v, hx, hv, rfl⟩ := h
  exact (ho id x hx).2.2 v (Array.mem_of_getElem? hv)

/-- Of values in order, a pass reads the first ones. -/
theorem filter_getElem? {values : List StreamValue}
    (h : values.Pairwise fun u v => u.pass ≤ v.pass) (pass : Nat) {i : Nat} {v : StreamValue}
    (hv : values[i]? = some v) :
    (values.filter fun u => decide (u.pass ≤ pass))[i]? = if v.pass ≤ pass then some v else none := by
  induction values generalizing i with
  | nil => simp at hv
  | cons u rest ih =>
    obtain ⟨hu, hrest⟩ := List.pairwise_cons.1 h
    by_cases hle : u.pass ≤ pass
    · rw [List.filter_cons_of_pos (by simpa using hle)]
      cases i with
      | zero =>
        obtain rfl : u = v := by simpa using hv
        simp [hle]
      | succ i =>
        rw [List.getElem?_cons_succ] at hv ⊢
        exact ih hrest hv
    · -- nothing after a value that is too late can be read
      have hnone : (u :: rest).filter (fun u => decide (u.pass ≤ pass)) = [] := by
        rw [List.filter_eq_nil_iff]
        intro y hy
        rcases List.mem_cons.1 hy with rfl | hy
        · simpa using hle
        · have := hu y hy
          simp only [decide_eq_true_eq]
          omega
      have hlate : ¬ v.pass ≤ pass := by
        rcases List.mem_cons.1 (List.mem_of_getElem? hv) with rfl | hy
        · exact hle
        · have := hu v hy
          omega
      rw [hnone, if_neg hlate]
      rfl

/-- A pass reads a value if it is for that pass or an earlier one. -/
theorem Ordered.visible_getElem? {last : Nat} (h : ss.Ordered last) {x : Stream}
    (hx : ss.find? id = some x) {v : StreamValue} (hv : x.values[i]? = some v) (pass : Nat) :
    (x.visible pass)[i]? = if v.pass ≤ pass then some v.value else none := by
  rw [Stream.visible, List.getElem?_map,
    filter_getElem? (h id x hx).2.1 pass (by simpa using hv)]
  split <;> rfl

/-! ## Opening a stream -/

theorem find?_configure (ss : Streams) (opened id : StreamId) (inputs : List Value) :
    (ss.configure opened inputs).find? id = (ss.find? id).map fun x =>
      if opened.index = id.index then { x with clock := x.clock.configure inputs } else x := by
  simp only [configure, find?, Array.getElem?_modify]
  split
  · rfl
  · simp

theorem find?_create (ss : Streams) (kind : StreamKind) (creator : NodeId) (inputs : List Value)
    (start : Nat) (config : Config) (id : StreamId) :
    (ss.create kind creator inputs start config).2.find? id =
      if id.index = ss.size then
        some ⟨⟨ss.size⟩, kind, creator, (Clock.ofFrequency config.timeFrequency).configure inputs,
          #[⟨Clock.initial, start⟩]⟩
      else ss.find? id := by
  simp only [create, find?, Array.getElem?_push]
  rfl

theorem arrived_configure {opened : StreamId} {inputs : List Value} :
    (ss.configure opened inputs).Arrived id i pass ↔ ss.Arrived id i pass := by
  simp only [Arrived, find?_configure, Option.map_eq_some_iff]
  constructor
  · rintro ⟨hi, x, v, ⟨y, hy, rfl⟩, hv, hp⟩
    exact ⟨hi, y, v, hy, by split at hv <;> exact hv, hp⟩
  · rintro ⟨hi, x, v, hx, hv, hp⟩
    exact ⟨hi, _, v, ⟨x, hx, rfl⟩, by split <;> exact hv, hp⟩

theorem find?_size (ss : Streams) (h : id.index = ss.size) : ss.find? id = none := by
  rw [find?, h]
  exact Array.getElem?_eq_none (Nat.le_refl _)

theorem arrived_create {kind : StreamKind} {creator : NodeId} {inputs : List Value} {start : Nat}
    {config : Config} :
    (ss.create kind creator inputs start config).2.Arrived id i pass ↔ ss.Arrived id i pass := by
  simp only [Arrived, find?_create]
  by_cases hid : id.index = ss.size
  · -- the new stream has its first value only
    rw [if_pos hid, ss.find?_size hid]
    constructor
    · rintro ⟨hi, x, v, hx, hv, -⟩
      cases hx
      obtain ⟨hlt, -⟩ := Array.getElem?_eq_some_iff.1 hv
      simp only [List.size_toArray, List.length_singleton] at hlt
      omega
    · rintro ⟨-, x, v, hx, -⟩
      cases hx
  · rw [if_neg hid]

theorem Ordered.configure {last : Nat} (h : ss.Ordered last) (opened : StreamId)
    (inputs : List Value) : (ss.configure opened inputs).Ordered last := by
  intro id x hx
  rw [find?_configure] at hx
  obtain ⟨y, hy, rfl⟩ := Option.map_eq_some_iff.1 hx
  split <;> exact h id y hy

theorem Ordered.create {last start : Nat} (h : ss.Ordered last) (hstart : start ≤ last)
    (kind : StreamKind) (creator : NodeId) (inputs : List Value) (config : Config) :
    (ss.create kind creator inputs start config).2.Ordered last := by
  intro id x hx
  rw [find?_create] at hx
  split at hx
  · cases hx
    simpa using hstart
  · exact h id x hx

/-! ## Ticks -/

theorem find?_tick (ss : Streams) (now : Float) (next : Nat) (id : StreamId) :
    (ss.tick now next).2.find? id = (ss.find? id).map fun x => (x.tick now next).2 := by
  simp only [tick, find?, Array.getElem?_map, Option.map_map]
  rfl

end Streams

theorem Stream.tick_values (x : Stream) (now : Float) (next : Nat) :
    ((x.tick now next).1 = true ∧ ∃ v, (x.tick now next).2.values = x.values.push ⟨v, next⟩) ∨
      ((x.tick now next).1 = false ∧ (x.tick now next).2.values = x.values) := by
  unfold Stream.tick
  split
  · exact .inl ⟨rfl, _, rfl⟩
  · exact .inr ⟨rfl, rfl⟩

namespace Streams

variable {ss ss' : Streams} {id : StreamId} {i pass : Nat}

/-- A tick tells of the streams that have got a value. -/
theorem mem_tick (h : ss.Regular) (now : Float) (next : Nat) :
    id ∈ (ss.tick now next).1 ↔ ∃ i, ss.Appends (ss.tick now next).2 id i := by
  simp only [Appends, find?_tick]
  constructor
  · intro hid
    simp only [tick, List.mem_map, List.mem_filter, Array.toList_map] at hid
    obtain ⟨p, ⟨⟨x, hx, rfl⟩, hp⟩, rfl⟩ := hid
    obtain ⟨k, hk⟩ := List.mem_iff_getElem?.1 hx
    have hk' : ss.streams[k]? = some x := by simpa using hk
    have hfind : ss.find? (x.tick now next).2.id = some x := by
      rw [(x.tick_id now next).1, (h.places k x hk').1]
      exact hk'
    rcases x.tick_values now next with ⟨-, v, hv⟩ | ⟨hf, -⟩
    · exact ⟨_, x, _, _, hfind, by rw [hfind]; rfl, rfl, hv⟩
    · rw [hf] at hp
      cases hp
  · rintro ⟨i, x, y, v, hx, hy, -, hv⟩
    rw [hx] at hy
    cases hy
    have hid : (x.tick now next).2.id = id := by
      rw [(x.tick_id now next).1, (h.places id.index x hx).1]
    have hp : (x.tick now next).1 = true := by
      rcases x.tick_values now next with ⟨hp, -⟩ | ⟨-, hsame⟩
      · exact hp
      · have := congrArg Array.size (hsame.symm.trans hv)
        simp at this
    simp only [tick, List.mem_map, List.mem_filter, Array.toList_map]
    exact ⟨_, ⟨⟨x, Array.mem_toList_iff.2 (Array.mem_of_getElem? hx), rfl⟩, hp⟩, hid⟩

/-- After a tick the values are those from before and those that it has added, which the next pass
may read. -/
theorem arrived_tick {last : Nat} (h : ss.Ordered last) (now : Float) (next : Nat)
    (id : StreamId) (i pass : Nat) :
    (ss.tick now next).2.Arrived id i pass ↔
      ss.Arrived id i pass ∨ pass = next ∧ ss.Appends (ss.tick now next).2 id i := by
  constructor
  · rintro ⟨hi, y, v, hy, hv, rfl⟩
    rw [find?_tick] at hy
    obtain ⟨x, hx, rfl⟩ := Option.map_eq_some_iff.1 hy
    rcases x.tick_values now next with ⟨-, u, hu⟩ | ⟨-, hu⟩
    · rw [hu, Array.getElem?_push] at hv
      split at hv
      · rename_i hsize
        cases hv
        exact .inr ⟨rfl, x, _, _, hx, by rw [find?_tick, hx]; rfl, hsize.symm, hu⟩
      · exact .inl ⟨hi, x, v, hx, hv, rfl⟩
    · rw [hu] at hv
      exact .inl ⟨hi, x, v, hx, hv, rfl⟩
  · rintro (⟨hi, x, v, hx, hv, rfl⟩ | ⟨rfl, x, y, v, hx, hy, rfl, hv⟩)
    · refine ⟨hi, _, v, by rw [find?_tick, hx]; rfl, ?_, rfl⟩
      obtain ⟨hlt, -⟩ := Array.getElem?_eq_some_iff.1 hv
      rcases x.tick_values now next with ⟨-, u, hu⟩ | ⟨-, hu⟩
      · rw [hu, Array.getElem?_push_lt hlt, ← Array.getElem?_eq_getElem hlt, hv]
      · rw [hu, hv]
    · rw [find?_tick, hx] at hy
      cases hy
      rcases x.tick_values now pass with ⟨-, u, hu⟩ | ⟨-, hu⟩
      · refine ⟨(h id x hx).1, _, ⟨u, pass⟩, by rw [find?_tick, hx]; rfl, ?_, rfl⟩
        rw [hu, Array.getElem?_push_size]
      · have := congrArg Array.size (hu.symm.trans hv)
        simp at this

theorem Ordered.tick {last next : Nat} (h : ss.Ordered last) (hle : last ≤ next) (now : Float) :
    (ss.tick now next).2.Ordered next := by
  intro id y hy
  rw [find?_tick] at hy
  obtain ⟨x, hx, rfl⟩ := Option.map_eq_some_iff.1 hy
  obtain ⟨h1, h2, h3⟩ := h id x hx
  have h3' : ∀ v ∈ x.values, v.pass ≤ next := fun v hv => Nat.le_trans (h3 v hv) hle
  rcases x.tick_values now next with ⟨-, u, hu⟩ | ⟨-, hu⟩
  · rw [hu]
    refine ⟨by simp, ?_, fun v hv => ?_⟩
    · rw [Array.toList_push, List.pairwise_append]
      exact ⟨h2, List.pairwise_singleton _ _, fun a ha b hb => by
        rw [List.mem_singleton.1 hb]
        exact h3' a (Array.mem_toList_iff.1 ha)⟩
    · rcases Array.mem_push.1 hv with hv | rfl
      · exact h3' v hv
      · exact Nat.le_refl _
  · rw [hu]
    exact ⟨h1, h2, h3'⟩

end Streams

/-! ## Steps -/

namespace Machine

variable {m m' : Machine} {w : World} {streams : Streams}

/-- All that a step does to the streams is to open one. -/
theorem step_opens {s : Step} (h : m.step w = some (s, m', streams)) :
    streams = w.streams ∨ ∃ kind node inputs, streams = (openStream w kind node inputs).2 := by
  obtain ⟨-, ⟨f, -, -, rfl⟩ | ⟨m1, he, -⟩⟩ := step_cases h
  · exact .inl rfl
  · exact execute_opens he

/-- A step leaves the streams as they are, gives one new inputs, or makes one for a call that had
none. -/
theorem step_touches {s : Step} (h : m.step w = some (s, m', streams)) :
    streams = w.streams ∨ (∃ id inputs, streams = w.streams.configure id inputs) ∨
      ∃ kind node inputs, w.streams.createdBy? node = none ∧
        streams = (w.streams.create kind node inputs w.pass.number w.program.config).2 := by
  obtain rfl | ⟨kind, node, inputs, rfl⟩ := step_opens h
  · exact .inl rfl
  · unfold openStream
    split
    · split
      · exact .inl rfl
      · exact .inr (.inl ⟨_, inputs, rfl⟩)
    · rename_i hnone
      exact .inr (.inr ⟨kind, node, inputs, hnone, rfl⟩)

/-- No step adds a value to a stream that is there. -/
theorem step_arrived {s : Step} (h : m.step w = some (s, m', streams)) {id : StreamId}
    {i pass : Nat} : streams.Arrived id i pass ↔ w.streams.Arrived id i pass := by
  obtain rfl | ⟨opened, inputs, rfl⟩ | ⟨kind, node, inputs, -, rfl⟩ := step_touches h
  · exact Iff.rfl
  · exact Streams.arrived_configure
  · exact Streams.arrived_create

theorem step_ordered {s : Step} (h : m.step w = some (s, m', streams)) {last : Nat}
    (ho : w.streams.Ordered last) (hp : w.pass.number ≤ last) : streams.Ordered last := by
  obtain rfl | ⟨opened, inputs, rfl⟩ | ⟨kind, node, inputs, -, rfl⟩ := step_touches h
  · exact ho
  · exact ho.configure opened inputs
  · exact ho.create hp kind node inputs _

end Machine
end ReactiveLang
