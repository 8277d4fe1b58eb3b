import ReactiveLang.Proofs.Eval.Proper
import ReactiveLang.Proofs.Session.Discipline
import ReactiveLang.Proofs.Session.Partition
import ReactiveLang.Proofs.Session.Turns
import ReactiveLang.Proofs.Value.Equality

/-!
# Every value is well formed

Passes are handed proper values only, and streams get numbers only (`Session.Proper`). So every
machine of a session is proper, and every value that can be found in the session is well formed at
any depth: its collections have different items or keys and hold no streams
(`values_wellFormed`).
-/

namespace ReactiveLang

/-! ## Where values are -/

/-- The value is somewhere in the machine. -/
inductive Machine.Contains (m : Machine) : Value → Prop where
  | waiting {f : Frame} {v : Value} : f ∈ m.frames → v ∈ f.values → Contains m v
  | bound {id : EvaluationId} {e : Evaluation} {b : String × Value} :
      m.evaluations.find? id = some e → b ∈ e.bindings → Contains m b.2
  | subject {id : EvaluationId} {e : Evaluation} {v : Value} :
      m.evaluations.find? id = some e → e.subject = some v → Contains m v
  | reaction {e : NodeId × Value} : e ∈ m.reactions → Contains m e.2
  | remembered {e : NodeId × Value} : e ∈ m.memo → Contains m e.2
  | result {v : Value} : m.result = some v → Contains m v

theorem Machine.Proper.contains {layout : NodeId → List String} {m : Machine} (h : m.Proper layout)
    {v : Value} (hv : m.Contains v) : v.Proper layout := by
  cases hv with
  | waiting hf hv => exact h.only.values _ hf _ hv
  | bound he hb => exact (h.only.evaluations _ _ he).bindings _ hb
  | subject he hs => exact ((h.only.evaluations _ _ he).subject _ hs).proper
  | reaction he => exact h.only.reactions _ he
  | remembered he => exact h.only.memo _ he
  | result hr => exact h.result _ hr

namespace Session

variable {s s' : Session}

/-- The value is somewhere in the session: in a machine on the way of a pass, at the cursor or kept,
or in what a pass was handed, a stream, the result or the history. -/
inductive Contains (s : Session) : Value → Prop where
  | machine {place offset : Nat} {v : Value} : place < s.passes.size → offset ≤ s.length place →
      (s.machineAt place offset).Contains v → Contains s v
  | cursor {v : Value} : s.machine.Contains v → Contains s v
  | kept {place : Nat} {m : Machine} {v : Value} : place < s.passes.size →
      m ∈ (s.record place).snapshots → m.Contains v → Contains s v
  | memo {place : Nat} {e : NodeId × Value} : place < s.passes.size →
      e ∈ (s.record place).pass.memo → Contains s e.2
  | reaction {place : Nat} {e : NodeId × Value} : place < s.passes.size →
      e ∈ (s.record place).pass.reactions → Contains s e.2
  | stream {x : Stream} {v : StreamValue} : x ∈ s.streams.streams → v ∈ x.values →
      Contains s v.value
  | result {v : Value} : s.result = some v → Contains s v
  | history {r : Reaction} : r ∈ s.history → Contains s r.result

/-! ## What all commands keep -/

/-- Streams and passes have proper values only. -/
structure Proper (s : Session) : Prop where
  streams : s.streams.Only (Value.Passable s.program.tree.inputNames)
  passes : ∀ k < s.passes.size, (s.record k).pass.Only (Value.Proper s.program.tree.inputNames)

theorem proper_ofProgram (p : Program) (notices : Option (List Notice)) :
    ({ ofProgram p with notices } : Session).Proper := by
  refine ⟨Streams.only_empty, fun k hk => ?_⟩
  obtain rfl : k = 0 := Nat.lt_one_iff.1 hk
  exact ⟨nofun, nofun⟩

section
variable (a : s.Proper)
include a

theorem Proper.world {k : Nat} (hk : k < s.passes.size) (replaying : Bool) :
    World.Proper ⟨s.program, (s.record k).pass, s.streams, replaying⟩ :=
  ⟨a.streams, a.passes k hk⟩

/-- Every machine of a pass is proper. -/
theorem Proper.machineAt (h : s.Sound) {k i : Nat} (hk : k < s.passes.size) (hi : i ≤ s.length k) :
    (s.machineAt k i).Proper s.program.tree.inputNames :=
  (h.passes k hk).retraces.proper (a.world hk true) (Machine.proper_start _ _) hi

theorem Proper.machine (h : s.Sound) : s.machine.Proper s.program.tree.inputNames := by
  rw [h.machine]
  exact a.machineAt h h.cursor h.index

theorem Proper.stepped (h : s.Sound) {step : Step} {m : Machine} {streams : Streams}
    (hs : s.machine.step ⟨s.program, (s.record s.cursor).pass, s.streams, false⟩ =
      some (step, m, streams)) : (s.stepped step m streams).Proper := by
  have hstep := Machine.Proper.step (a.world h.cursor false) (a.machine h) hs
  obtain ⟨hprogram, hstreams, -⟩ := s.stepped_fields step m streams
  constructor <;> rw [hprogram]
  · rw [hstreams]
    exact hstep.2
  · intro k hk
    rw [(s.stepped_record_fields step m streams k).2]
    exact a.passes k (by rwa [s.stepped_size] at hk)

/-- A pass is handed what the machine of the pass before has kept. -/
theorem Proper.began (h : s.Sound) : (s.beginPass s.nextPass).Proper := by
  refine ⟨a.streams, fun k hk => ?_⟩
  have g := h.grows_beginPass s.nextPass
  rw [s.beginPass_size] at hk
  rcases Nat.lt_or_eq_of_le (Nat.le_of_lt_succ hk) with hlt | rfl
  · rw [(g.record k hlt).2]
    exact a.passes k hlt
  · rw [s.beginPass_record]
    exact ⟨(a.machine h).only.memo, (a.machine h).only.reactions⟩

end

theorem kept_proper : Kept Proper where
  turn := by
    intro s s' h a t
    cases t with
    | placed => exact ⟨a.streams, a.passes⟩
    | stepped _ taken => exact a.stepped h taken
    | began => exact a.began h
    | told => exact ⟨a.streams, a.passes⟩
  tick := fun _ a now =>
    ⟨a.streams.tick (fun _ => ⟨Value.proper_measurement _ _ _, rfl⟩) now _, a.passes⟩
  renewed := fun _ _ => proper_ofProgram _ _

/-! ## Every value -/

/-- What is true of all values in the machines on the way of the passes, in what the passes are handed
and in the streams is true of every value in the session. -/
theorem Sound.contains_only (h : s.Sound) (c : s.Chronicled) {P : Value → Prop}
    (hnothing : P .nothing)
    (hmachine : ∀ k i, k < s.passes.size → i ≤ s.length k →
      ∀ v, (s.machineAt k i).Contains v → P v)
    (hpass : ∀ k < s.passes.size, (s.record k).pass.Only P) (hstreams : s.streams.Only P) {v : Value}
    (hv : s.Contains v) : P v := by
  have hresult : ∀ {k i : Nat}, k < s.passes.size → i ≤ s.length k →
      P ((s.machineAt k i).result.getD .nothing) := by
    intro k i hk hi
    cases hr : (s.machineAt k i).result with
    | none => exact hnothing
    | some v => exact hmachine k i hk hi v (.result hr)
  cases hv with
  | machine hk hi hv => exact hmachine _ _ hk hi _ hv
  | cursor hv =>
    rw [h.machine] at hv
    exact hmachine _ _ h.cursor h.index _ hv
  | @kept place m _ hk hm hv =>
    obtain ⟨hsize, hkept⟩ := (h.passes place hk).snapshots
    obtain ⟨j, hj, rfl⟩ := Array.mem_iff_getElem.1 hm
    have hle := Nat.le_of_lt_succ (hsize ▸ hj)
    have hat := (Array.getElem?_eq_getElem hj).symm.trans (hkept j hle)
    rw [Option.some.inj hat] at hv
    refine hmachine _ _ hk ?_ _ hv
    exact Nat.le_trans (Nat.mul_le_mul_right _ hle) (Nat.div_mul_le_self _ _)
  | memo hk he => exact (hpass _ hk).memo _ he
  | reaction hk he => exact (hpass _ hk).reactions _ he
  | stream hx hv =>
    obtain ⟨i, hi, rfl⟩ := Array.mem_iff_getElem.1 hx
    exact hstreams i _ (Array.getElem?_eq_getElem hi) _ hv
  | result hv =>
    rw [h.result] at hv
    dsimp only at hv
    split at hv
    · cases hv
      exact hresult h.newest_lt (Nat.le_refl _)
    · cases hv
  | history hr =>
    obtain ⟨k, hk, rfl⟩ := Array.mem_iff_getElem.1 hr
    rw [c.size] at hk
    have hentry := (Array.getElem?_eq_getElem (c.size ▸ hk)).symm.trans (c.entries k hk)
    rw [Option.some.inj hentry]
    exact hresult (Nat.lt_of_le_of_lt hk h.newest_lt) (Nat.le_refl _)

theorem Proper.contains (a : s.Proper) (h : s.Sound) (c : s.Chronicled) {v : Value}
    (hv : s.Contains v) : v.Proper s.program.tree.inputNames :=
  h.contains_only c (Value.proper_nothing _) (fun _ _ hk hi _ hv => (a.machineAt h hk hi).contains hv)
    a.passes (fun i x hx v hv => (a.streams i x hx v hv).proper) hv

/-- Every value that a program can build is well formed, after any commands. Whatever is found in
the session, in a machine on the way of any pass, in what passes are handed, in a stream, or as a
result, has at any depth only collections without streams, with items or keys that differ. What has
been given to a conversion is no stream, and neither is anything that a machine passes to a call
next. -/
theorem values_wellFormed {d : Draft} {root : NodeId} {t : Tree} {config : Config} {s : Session}
    (ht : d.finish root = .ok t) (hs : Session.start t config = .ok s) (commands : List Command) :
    let now := s.after commands
    (∀ v, now.Contains v → v.Everywhere Value.WellFormed) ∧
      ∀ place offset, place < now.passes.size → offset ≤ now.length place →
        (∀ id e v, (now.machineAt place offset).evaluations.find? id = some e →
          e.subject = some v → v.toStream? = none) ∧
        ∀ replaying v, (now.machineAt place offset).Passes
            ⟨now.program, (now.record place).pass, now.streams, replaying⟩ v →
          v.toStream? = none ∧ v.Everywhere Value.WellFormed := by
  intro now
  have hnow : now.Sound := ((host_start ht hs).after commands).sound
  have a : now.Proper := kept_proper.started ht hs (proper_ofProgram _ none) commands
  have c : now.Chronicled := chronicled_after ht hs commands
  refine ⟨fun v hv => (a.contains hnow c hv).wellFormed, fun place offset hp ho => ?_⟩
  have hm := a.machineAt hnow hp ho
  refine ⟨fun id e v he hv => ((hm.only.evaluations id e he).subject v hv).noStream,
    fun replaying v hv => ?_⟩
  have hpassed := Machine.Proper.passes (a.world hp replaying) hm hv
  exact ⟨hpassed.noStream, hpassed.proper.wellFormed⟩

/-- The tree of a program with a list of the clock and a set in which one item is written twice. -/
def collectionTree : Tree :=
  ⟨#[⟨.reference "Time", .zero⟩, ⟨.call ⟨0⟩ [], .zero⟩, ⟨.boolean true, .zero⟩,
    ⟨.boolean true, .zero⟩, ⟨.set [⟨2⟩, ⟨3⟩], .zero⟩, ⟨.list [⟨1⟩, ⟨4⟩], .zero⟩,
    ⟨.block [⟨5⟩], .zero⟩, ⟨.program ⟨6⟩, .zero⟩],
    #[some ⟨1⟩, some ⟨5⟩, some ⟨4⟩, some ⟨4⟩, some ⟨5⟩, some ⟨6⟩, some ⟨7⟩, none], ⟨7⟩⟩

theorem finish_collection : collectionTree.edit.finish ⟨7⟩ = .ok collectionTree := rfl

theorem start_collection : Session.start collectionTree .default =
    .ok (ofProgram (Program.ofTree collectionTree .default)) :=
  start_eq (by decide) (by decide +kernel)

/-- The item and the set, if the value is a list of both. -/
def itemAndSet? : Option Value → Option (Value × List Value)
  | some (.list [item, .set found]) => some (item, found)
  | _ => none

theorem of_itemAndSet? {v : Option Value} {item : Value} {found : List Value}
    (h : itemAndSet? v = some (item, found)) : v = some (.list [item, .set found]) := by
  unfold itemAndSet? at h
  split at h
  · cases h
    rfl
  · cases h

/-- The list has a value of the clock in the place of the clock, and one item is left in the set. -/
theorem values_wellFormed_collection :
    collectionTree.edit.finish ⟨7⟩ = .ok collectionTree ∧
      ∃ s, Session.start collectionTree .default = .ok s ∧
        let now := s.after [.evaluate, .tick 40, .react]
        ∃ item found, now.result = some (.list [item, .set found]) ∧ item.toStream? = none ∧
          found.length = 1 ∧ found.Pairwise Value.Differ := by
  let now :=
    (ofProgram (Program.ofTree collectionTree .default)).after [.evaluate, .tick 40, .react]
  have hshape : ((itemAndSet? now.result).map fun p => p.2.length) = some 1 := by decide +kernel
  obtain ⟨⟨item, found⟩, hfound, hlength⟩ := Option.map_eq_some_iff.1 hshape
  have hresult := of_itemAndSet? hfound
  have hall := (values_wellFormed finish_collection start_collection
    [.evaluate, .tick 40, .react]).1 _ (.result hresult)
  refine ⟨finish_collection, _, start_collection, item, found, hresult, ?_, hlength, ?_⟩
  · exact hall.here item (by simp)
  · exact ((Value.everywhere_list.1 hall).2 (.set found) (by simp)).here.1

end Session
end ReactiveLang
