import ReactiveLang.Eval.Machine
import ReactiveLang.Proofs.Value.Handles

/-!
# What a pass reads of the streams

Streams grow while passes run and between them. `old.Extends new pass` says that `new` still has
each stream of `old` at its place and under its call, and shows passes up to `pass` the same values
of it.

* `extends_tick`: a tick adds values that only later passes see.
* `openStream_extends`, `openStream_createdBy`: a call of a stream's definition leaves what is
  there as it is, and finds its own stream afterwards.
* `Streams.Alike`: the same streams for passes up to `pass`, as before and after a tick.
* `Streams.Only`: what all values of streams satisfy.
* `Streams.Regular`: each stream carries its place as its id, and its values point to nothing.
-/

namespace ReactiveLang

namespace Stream

theorem latestAt?_eq (s : Stream) (pass : Nat) : s.latestAt? pass = (s.visible pass).getLast? := by
  simp [latestAt?, visible]

theorem visible_push (s : Stream) (v : StreamValue) {pass : Nat} (h : pass < v.pass) :
    ({ s with values := s.values.push v } : Stream).visible pass = s.visible pass := by
  have hf : ¬ v.pass ≤ pass := by omega
  simp [visible, List.filter_append, hf]

theorem visible_tick (s : Stream) (now : Float) {pass next : Nat} (h : pass < next) :
    (s.tick now next).2.visible pass = s.visible pass := by
  unfold tick
  split
  · exact visible_push { s with clock := _ } ⟨_, next⟩ h
  · rfl

theorem tick_id (s : Stream) (now : Float) (next : Nat) :
    (s.tick now next).2.id = s.id ∧ (s.tick now next).2.kind = s.kind ∧
      (s.tick now next).2.creator = s.creator := by
  unfold tick
  split <;> exact ⟨rfl, rfl, rfl⟩

end Stream

namespace Streams

/-- Passes up to `pass` cannot tell the streams of `old` from those at the same places in `new`, and
each call finds its stream again. -/
structure Extends (old new : Streams) (pass : Nat) : Prop where
  places : ∀ (i : Nat) (x : Stream), old.streams[i]? = some x → ∃ y : Stream,
    new.streams[i]? = some y ∧ y.id = x.id ∧ y.kind = x.kind ∧ y.creator = x.creator ∧
      ∀ p ≤ pass, y.visible p = x.visible p
  createdBy? : ∀ {creator : NodeId} {id : StreamId}, old.createdBy? creator = some id →
    new.createdBy? creator = some id

theorem Extends.refl (ss : Streams) (pass : Nat) : ss.Extends ss pass :=
  ⟨fun _ x hx => ⟨x, hx, rfl, rfl, rfl, fun _ _ => rfl⟩, id⟩

theorem Extends.trans {a b c : Streams} {pass : Nat} (h1 : a.Extends b pass)
    (h2 : b.Extends c pass) : a.Extends c pass := by
  refine ⟨fun i x hx => ?_, fun hid => h2.createdBy? (h1.createdBy? hid)⟩
  obtain ⟨y, hy, i1, k1, c1, v1⟩ := h1.places i x hx
  obtain ⟨z, hz, i2, k2, c2, v2⟩ := h2.places i y hy
  exact ⟨z, hz, i2.trans i1, k2.trans k1, c2.trans c1, fun p hp => (v2 p hp).trans (v1 p hp)⟩

theorem Extends.mono {a b : Streams} {pass pass' : Nat} (h : a.Extends b pass)
    (hp : pass' ≤ pass) : a.Extends b pass' := by
  refine ⟨fun i x hx => ?_, h.createdBy?⟩
  obtain ⟨y, hy, e1, e2, e3, hv⟩ := h.places i x hx
  exact ⟨y, hy, e1, e2, e3, fun p h => hv p (Nat.le_trans h hp)⟩

theorem Extends.size_le {a b : Streams} {pass : Nat} (h : a.Extends b pass) : a.size ≤ b.size := by
  rcases Nat.lt_or_ge b.size a.size with hlt | hle
  · obtain ⟨y, hy, -⟩ := h.places b.size _ (Array.getElem?_eq_getElem hlt)
    simp [size] at hy
  · exact hle

/-- Of a stream that was there, a pass sees the same. -/
theorem Extends.latestAt? {a b : Streams} {pass : Nat} (h : a.Extends b pass) {id : StreamId}
    (hid : id.index < a.size) :
    ((b.find? id).bind fun s => s.latestAt? pass) =
      (a.find? id).bind fun s => s.latestAt? pass := by
  obtain ⟨y, hy, -, -, -, hv⟩ := h.places id.index _ (Array.getElem?_eq_getElem hid)
  simp only [find?, hy, Array.getElem?_eq_getElem hid, Option.bind_some, Stream.latestAt?_eq,
    hv pass (Nat.le_refl _)]

theorem Extends.previousAt? {a b : Streams} {pass : Nat} (h : a.Extends b pass) {id : StreamId}
    (hid : id.index < a.size) (count : Nat) :
    ((b.find? id).bind fun s => s.previousAt? count pass) =
      (a.find? id).bind fun s => s.previousAt? count pass := by
  obtain ⟨y, hy, -, -, -, hv⟩ := h.places id.index _ (Array.getElem?_eq_getElem hid)
  simp only [find?, hy, Array.getElem?_eq_getElem hid, Option.bind_some, Stream.previousAt?,
    hv pass (Nat.le_refl _)]

theorem createdBy?_create (ss : Streams) (kind : StreamKind) (creator : NodeId)
    (inputs : List Value) (start : Nat) (config : Config) (other : NodeId) :
    (ss.create kind creator inputs start config).2.createdBy? other =
      if other = creator then some ⟨ss.size⟩ else ss.createdBy? other := by
  unfold create createdBy?
  split
  · rename_i heq
    rw [heq]
    exact Keyed.lookup_insert_self _ _ _
  · rename_i hne
    exact Keyed.lookup_insert_of_ne hne _ _

theorem extends_create {ss : Streams} {creator : NodeId} (hnone : ss.createdBy? creator = none)
    (kind : StreamKind) (inputs : List Value) (start : Nat) (config : Config) (pass : Nat) :
    ss.Extends (ss.create kind creator inputs start config).2 pass := by
  refine ⟨fun i x hx => ?_, fun {other id} hid => ?_⟩
  · have hi : i < ss.streams.size := (Array.getElem?_eq_some_iff.1 hx).1
    refine ⟨x, ?_, rfl, rfl, rfl, fun _ _ => rfl⟩
    rw [← hx]
    simp only [create, Array.getElem?_push, if_neg (Nat.ne_of_lt hi)]
  · have hne : other ≠ creator := by
      rintro rfl
      rw [hnone] at hid
      cases hid
    rw [createdBy?_create, if_neg hne, hid]

theorem extends_configure (ss : Streams) (id : StreamId) (inputs : List Value) (pass : Nat) :
    ss.Extends (ss.configure id inputs) pass := by
  refine ⟨fun i x hx => ?_, fun hid => hid⟩
  have hn : (ss.configure id inputs).streams[i]? =
      if id.index = i then some { x with clock := x.clock.configure inputs } else some x := by
    simp only [configure, Array.getElem?_modify, hx, Option.map_some]
  rw [hn]
  split <;> exact ⟨_, rfl, rfl, rfl, rfl, fun _ _ => rfl⟩

theorem extends_tick (ss : Streams) (now : Float) {pass next : Nat} (h : pass < next) :
    ss.Extends (ss.tick now next).2 pass := by
  refine ⟨fun i x hx => ⟨(x.tick now next).2, by simp [tick, hx], ?_⟩, fun hid => hid⟩
  obtain ⟨e1, e2, e3⟩ := x.tick_id now next
  exact ⟨e1, e2, e3, fun p hp => x.visible_tick now (Nat.lt_of_le_of_lt hp h)⟩

/-- A call of a stream's definition makes the stream, or finds it and gives it inputs. -/
theorem createOrReuse_cases (ss : Streams) (kind : StreamKind) (creator : NodeId)
    (inputs : List Value) (pass : Nat) (config : Config) :
    (∃ id, ss.createdBy? creator = some id ∧
        ss.createOrReuse kind creator inputs pass config = (id, ss.configure id inputs)) ∨
      ss.createdBy? creator = none ∧
        ss.createOrReuse kind creator inputs pass config = ss.create kind creator inputs pass config := by
  unfold createOrReuse
  cases ss.createdBy? creator with
  | some id => exact .inl ⟨id, rfl, rfl⟩
  | none => exact .inr ⟨rfl, rfl⟩

theorem size_createOrReuse (ss : Streams) (kind : StreamKind) (creator : NodeId)
    (inputs : List Value) (pass : Nat) (config : Config) :
    ss.size ≤ (ss.createOrReuse kind creator inputs pass config).2.size := by
  obtain ⟨id, -, heq⟩ | ⟨-, heq⟩ := ss.createOrReuse_cases kind creator inputs pass config
  · simp [heq, configure, size]
  · simp [heq, create, size]

/-! ## Streams that a pass cannot tell apart -/

/-- The same streams, which passes up to `pass` cannot tell apart; their clocks may differ. -/
structure Alike (ss ss' : Streams) (pass : Nat) : Prop where
  there : ss.Extends ss' pass
  back : ss'.Extends ss pass

namespace Alike

variable {ss ss' : Streams} {pass : Nat}

theorem refl (ss : Streams) (pass : Nat) : ss.Alike ss pass := ⟨.refl ss pass, .refl ss pass⟩

theorem symm (h : ss.Alike ss' pass) : ss'.Alike ss pass := ⟨h.back, h.there⟩

theorem trans {ss'' : Streams} (h : ss.Alike ss' pass) (h' : ss'.Alike ss'' pass) :
    ss.Alike ss'' pass := ⟨h.there.trans h'.there, h'.back.trans h.back⟩

theorem size (h : ss.Alike ss' pass) : ss'.size = ss.size :=
  Nat.le_antisymm h.back.size_le h.there.size_le

theorem find?_none (h : ss.Alike ss' pass) {id : StreamId} (hid : ss.size ≤ id.index) :
    ss.find? id = none ∧ ss'.find? id = none :=
  ⟨Array.getElem?_eq_none hid, Array.getElem?_eq_none (by rw [← h.size] at hid; exact hid)⟩

theorem latestAt? (h : ss.Alike ss' pass) (id : StreamId) :
    ((ss'.find? id).bind fun s => s.latestAt? pass) =
      (ss.find? id).bind fun s => s.latestAt? pass := by
  rcases Nat.lt_or_ge id.index ss.size with hlt | hge
  · exact h.there.latestAt? hlt
  · rw [(h.find?_none hge).1, (h.find?_none hge).2]

theorem previousAt? (h : ss.Alike ss' pass) (id : StreamId) (count : Nat) :
    ((ss'.find? id).bind fun s => s.previousAt? count pass) =
      (ss.find? id).bind fun s => s.previousAt? count pass := by
  rcases Nat.lt_or_ge id.index ss.size with hlt | hge
  · exact h.there.previousAt? hlt count
  · rw [(h.find?_none hge).1, (h.find?_none hge).2]

theorem createdBy? (h : ss.Alike ss' pass) (creator : NodeId) :
    ss'.createdBy? creator = ss.createdBy? creator := by
  cases hc : ss.createdBy? creator with
  | some id => exact h.there.createdBy? hc
  | none =>
    cases hc' : ss'.createdBy? creator with
    | none => rfl
    | some id => rw [h.back.createdBy? hc'] at hc; cases hc

theorem configure (ss : Streams) (id : StreamId) (inputs : List Value) (pass : Nat) :
    ss.Alike (ss.configure id inputs) pass := by
  refine ⟨extends_configure ss id inputs pass, fun i y hy => ?_, fun hid => hid⟩
  simp only [Streams.configure, Array.getElem?_modify] at hy
  split at hy
  · obtain ⟨x, hx, rfl⟩ := Option.map_eq_some_iff.1 hy
    exact ⟨x, hx, rfl, rfl, rfl, fun _ _ => rfl⟩
  · exact ⟨y, hy, rfl, rfl, rfl, fun _ _ => rfl⟩

theorem extends_create_both (h : ss.Extends ss' pass) (hs : ss'.size = ss.size) (kind : StreamKind)
    (creator : NodeId) (inputs inputs' : List Value) (start : Nat) (config : Config) :
    (ss.create kind creator inputs start config).2.Extends
      (ss'.create kind creator inputs' start config).2 pass := by
  refine ⟨fun i x hx => ?_, fun {other id} hid => ?_⟩
  case refine_2 =>
    rw [createdBy?_create] at hid ⊢
    rw [hs]
    split at hid
    · rename_i heq
      rw [if_pos heq, hid]
    · rename_i hne
      rw [if_neg hne, h.createdBy? hid]
  have hpush : ∀ x', (ss'.streams.push x')[i]? = if i = ss.streams.size then some x' else
      ss'.streams[i]? := by
    intro x'
    rw [Array.getElem?_push, show ss'.streams.size = ss.streams.size from hs]
  simp only [Streams.create, Array.getElem?_push] at hx
  split at hx
  · rename_i hi
    cases hx
    exact ⟨_, (hpush _).trans (if_pos hi), congrArg StreamId.mk hs, rfl, rfl, fun _ _ => rfl⟩
  · rename_i hi
    obtain ⟨y, hy, hsame⟩ := h.places i x hx
    exact ⟨y, (hpush _).trans ((if_neg hi).trans hy), hsame⟩

theorem create (h : ss.Alike ss' pass) (kind : StreamKind) (creator : NodeId)
    (inputs inputs' : List Value) (start : Nat) (config : Config) :
    (ss.create kind creator inputs start config).2.Alike
      (ss'.create kind creator inputs' start config).2 pass :=
  ⟨extends_create_both h.there h.size kind creator inputs inputs' start config,
    extends_create_both h.back h.size.symm kind creator inputs' inputs start config⟩

end Alike

/-- A tick is not seen by the passes before those that it makes values for. -/
theorem alike_tick (ss : Streams) (now : Float) {pass next : Nat} (h : pass < next) :
    ss.Alike (ss.tick now next).2 pass := by
  refine ⟨ss.extends_tick now h, fun i y hy => ?_, fun hid => hid⟩
  simp only [tick, Array.getElem?_map, Option.map_map, Option.map_eq_some_iff] at hy
  obtain ⟨x, hx, rfl⟩ := hy
  obtain ⟨e1, e2, e3⟩ := x.tick_id now next
  refine ⟨x, hx, e1.symm, e2.symm, e3.symm, fun p hp => ?_⟩
  exact (x.visible_tick now (Nat.lt_of_le_of_lt hp h)).symm

/-! ## What streams contain -/

/-- The values of all streams satisfy `P`. -/
def Only (P : Value → Prop) (ss : Streams) : Prop :=
  ∀ (i : Nat) (x : Stream), ss.streams[i]? = some x → ∀ v ∈ x.values, P v.value

section
variable {P : Value → Prop} {ss : Streams}

theorem only_empty : Streams.empty.Only P := by
  intro i x hx
  simp [empty] at hx

theorem Only.configure (h : ss.Only P) (id : StreamId) (inputs : List Value) :
    (ss.configure id inputs).Only P := by
  intro i x hx
  simp only [Streams.configure, Array.getElem?_modify] at hx
  split at hx
  · obtain ⟨y, hy, rfl⟩ := Option.map_eq_some_iff.1 hx
    exact h i y hy
  · exact h i x hx

section
variable (h : ss.Only P) (hreading : ∀ ms, P (Clock.reading ms))
include h hreading

theorem Only.tick (now : Float) (next : Nat) : (ss.tick now next).2.Only P := by
  intro i y hy
  simp only [Streams.tick, Array.getElem?_map, Option.map_map, Option.map_eq_some_iff] at hy
  obtain ⟨x, hx, rfl⟩ := hy
  simp only [Function.comp_apply, Stream.tick, Clock.tick]
  split
  · rename_i hd
    split at hd
    · cases hd
      intro v hv
      rcases Array.mem_push.1 hv with hv | rfl
      · exact h i x hx v hv
      · exact hreading _
    · cases hd
  · exact h i x hx

theorem Only.create (kind : StreamKind) (creator : NodeId) (inputs : List Value) (pass : Nat)
    (config : Config) : (ss.create kind creator inputs pass config).2.Only P := by
  intro i x hx
  simp only [Streams.create, Array.getElem?_push] at hx
  split at hx
  · cases hx
    intro v hv
    simp only [List.mem_toArray, List.mem_singleton] at hv
    subst hv
    exact hreading _
  · exact h i x hx

theorem Only.createOrReuse (kind : StreamKind) (creator : NodeId) (inputs : List Value)
    (pass : Nat) (config : Config) :
    (ss.createOrReuse kind creator inputs pass config).2.Only P := by
  unfold Streams.createOrReuse
  split
  · exact h.configure _ _
  · exact h.create hreading _ _ _ _ _

end
end

/-! ## Regular streams -/

/-- A stream's id is its place, its values point to nothing, and a call finds only streams that are
there. -/
structure Regular (ss : Streams) : Prop where
  places : ∀ (i : Nat) (x : Stream), ss.streams[i]? = some x →
    x.id = ⟨i⟩ ∧ ∀ v ∈ x.values, v.value.handles = []
  createdBy?_lt : ∀ {creator : NodeId} {id : StreamId}, ss.createdBy? creator = some id →
    id.index < ss.size

/-- The values of all streams hold `ok`. -/
def Holds (ok : Handle → Prop) (ss : Streams) : Prop :=
  ∀ (i : Nat) (x : Stream), ss.streams[i]? = some x → ∀ v ∈ x.values, v.value.Holds ok

theorem Regular.holds {ok : Handle → Prop} {ss : Streams} (h : ss.Regular) : ss.Holds ok :=
  fun i x hx v hv => Value.holds_of_handles_nil ((h.places i x hx).2 v hv)

/-- The call of a stream adds the value before any tick, or no value. -/
theorem Holds.createOrReuse {ok : Handle → Prop} {ss : Streams} (h : ss.Holds ok)
    (kind : StreamKind) (creator : NodeId) (inputs : List Value) (pass : Nat) (config : Config) :
    (ss.createOrReuse kind creator inputs pass config).2.Holds ok :=
  Only.createOrReuse h (fun _ => Value.holds_measurement _ _) kind creator inputs pass config

theorem regular_empty : Regular .empty where
  places i x hx := by simp [empty] at hx
  createdBy?_lt h := by cases h

theorem Regular.tick {ss : Streams} (h : ss.Regular) (now : Float) (next : Nat) :
    (ss.tick now next).2.Regular where
  places i y hy := by
    simp only [Streams.tick, Array.getElem?_map, Option.map_map, Option.map_eq_some_iff] at hy
    obtain ⟨x, hx, rfl⟩ := hy
    obtain ⟨hid, hv⟩ := h.places i x hx
    refine ⟨(x.tick_id now next).1.trans hid, ?_⟩
    simp only [Function.comp_apply, Stream.tick, Clock.tick]
    split
    · rename_i hd
      split at hd
      · cases hd
        intro v hv'
        rcases Array.mem_push.1 hv' with hv' | rfl
        · exact hv v hv'
        · rfl
      · cases hd
    · exact hv
  createdBy?_lt hid := by
    simpa [Streams.tick, Streams.size] using h.createdBy?_lt hid

theorem Regular.create {ss : Streams} (h : ss.Regular) (kind : StreamKind) (creator : NodeId)
    (inputs : List Value) (start : Nat) (config : Config) :
    (ss.create kind creator inputs start config).2.Regular where
  places i x hx := by
    simp only [Streams.create, Array.getElem?_push] at hx
    split at hx
    · rename_i hi
      cases hx
      subst hi
      refine ⟨rfl, fun v hv => ?_⟩
      simp only [List.mem_toArray, List.mem_singleton] at hv
      subst hv
      rfl
    · exact h.places i x hx
  createdBy?_lt {other id} hid := by
    have hsize : (ss.create kind creator inputs start config).2.size = ss.size + 1 :=
      Array.size_push _
    rw [createdBy?_create] at hid
    rw [hsize]
    split at hid
    · cases hid
      exact Nat.lt_succ_self _
    · exact Nat.lt_succ_of_lt (h.createdBy?_lt hid)

theorem Regular.configure {ss : Streams} (h : ss.Regular) (id : StreamId) (inputs : List Value) :
    (ss.configure id inputs).Regular where
  places i x hx := by
    simp only [Streams.configure, Array.getElem?_modify] at hx
    split at hx
    · obtain ⟨y, hy, rfl⟩ := Option.map_eq_some_iff.1 hx
      exact h.places i y hy
    · exact h.places i x hx
  createdBy?_lt hid := by
    simpa [Streams.configure, Streams.size] using h.createdBy?_lt hid

theorem Regular.createOrReuse {ss : Streams} (h : ss.Regular) (kind : StreamKind)
    (creator : NodeId) (inputs : List Value) (start : Nat) (config : Config) :
    (ss.createOrReuse kind creator inputs start config).2.Regular := by
  obtain ⟨id, -, heq⟩ | ⟨-, heq⟩ := ss.createOrReuse_cases kind creator inputs start config
  · exact heq ▸ h.configure id inputs
  · exact heq ▸ h.create kind creator inputs start config

end Streams

/-! ## Opening a stream -/

namespace Machine

variable (w : World) (kind : StreamKind) (node : NodeId) (inputs : List Value)

theorem openStream_extends (pass : Nat) :
    w.streams.Extends (openStream w kind node inputs).2 pass := by
  unfold openStream
  split
  · split
    · exact .refl _ _
    · exact Streams.extends_configure _ _ _ _
  · rename_i hnone
    exact Streams.extends_create hnone _ _ _ _ _

theorem openStream_createdBy :
    (openStream w kind node inputs).2.createdBy? node =
      some (openStream w kind node inputs).1 := by
  unfold openStream
  split
  · rename_i id hid
    split <;> exact hid
  · exact (w.streams.createdBy?_create kind node inputs _ _ node).trans (if_pos rfl)

theorem openStream_regular (h : w.streams.Regular) :
    (openStream w kind node inputs).2.Regular := by
  unfold openStream
  split
  · split
    · exact h
    · exact h.configure _ _
  · exact h.create _ _ _ _ _

theorem openStream_only {P : Value → Prop} (h : w.streams.Only P)
    (hreading : ∀ ms, P (Clock.reading ms)) : (openStream w kind node inputs).2.Only P := by
  unfold openStream
  split
  · split
    · exact h
    · exact h.configure _ _
  · exact h.create hreading _ _ _ _ _

/-- A step that is taken again finds the stream and changes nothing. -/
theorem openStream_replaying {id : StreamId} (hw : w.replaying = true)
    (hid : w.streams.createdBy? node = some id) :
    openStream w kind node inputs = (id, w.streams) := by
  simp [openStream, hid, hw]

end Machine
end ReactiveLang
