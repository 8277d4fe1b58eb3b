import ReactiveLang.Proofs.Eval.Beside
import ReactiveLang.Proofs.Eval.Inheriting
import ReactiveLang.Proofs.Eval.Remembered
import ReactiveLang.Proofs.Session.Changes
import ReactiveLang.Proofs.Session.Discipline
import ReactiveLang.Proofs.Session.Streams

/-!
# What the passes of a plain program remember

Each pass of a plain program is handed values that it would compute itself, as far as it takes them:
the pass before has come to them where it evaluated everything, and no source that they depend on
has changed since.

* `Streams.Opened`, `Streams.renews_self`: what no value has come to since the pass before looks the
  same.
* `Retains`: the memory of the newest pass is that of the pass before. `Memoizes.reuses` says that
  the pass takes values rightly then, and `Memoizes.recomputes` that it remembers rightly for the
  next one.
* `kept_memoizes`: so it is with every pass, whatever the host does.
-/

namespace ReactiveLang

/-! ## Streams without new values -/

namespace Streams

variable {ss ss' : Streams} {last pass pass' : Nat}

/-- The first values of streams are for passes up to `pass`. -/
def Opened (ss : Streams) (pass : Nat) : Prop :=
  ∀ id x v, ss.find? id = some x → x.values[0]? = some v → v.pass ≤ pass

theorem opened_empty (pass : Nat) : Streams.empty.Opened pass := by
  intro id x v hx
  simp [find?, empty] at hx

/-- Streams that go on keep their first values. -/
theorem Opened.prolongs (h : ss.Opened pass) (ho : ss.Ordered last) (hp : ss.Prolongs ss')
    (hle : pass ≤ pass')
    (hnew : ∀ id x v, ss'.find? id = some x → ss.find? id = none → x.values[0]? = some v →
      v.pass ≤ pass') : ss'.Opened pass' := by
  intro id y v hy hv
  cases hx : ss.find? id with
  | none => exact hnew id y v hy hx hv
  | some x =>
    obtain ⟨y', hy', -, -, hvalues⟩ := hp id x hx
    obtain rfl := Option.some.inj (hy.symm.trans hy')
    have hpos : 0 < x.values.toList.length := (ho id x hx).1
    refine Nat.le_trans (h id x v hx ?_) hle
    rw [← Array.getElem?_toList] at hv ⊢
    obtain ⟨rest, hrest⟩ := hvalues
    rwa [← hrest, List.getElem?_append_left hpos] at hv

/-- A stream that has got no value for the next pass shows it nothing new. -/
theorem Opened.visible_succ (h : ss.Opened pass) (ho : ss.Ordered (pass + 1)) {id : StreamId}
    {x : Stream} (hx : ss.find? id = some x) (hnone : ∀ i, ¬ ss.Arrived id i (pass + 1)) :
    x.visible (pass + 1) = x.visible pass := by
  unfold Stream.visible
  refine congrArg (List.map StreamValue.value) (List.filter_congr fun v hv => ?_)
  have hlast : v.pass ≤ pass + 1 := (ho id x hx).2.2 v (by simpa using hv)
  have hearlier : v.pass ≤ pass := by
    obtain ⟨i, hi⟩ := List.getElem?_of_mem hv
    rw [Array.getElem?_toList] at hi
    rcases Nat.eq_zero_or_pos i with rfl | hpos
    · exact h id x v hx hi
    · have hne : v.pass ≠ pass + 1 := fun heq => hnone i ⟨hpos, x, v, hx, hi, heq⟩
      omega
  simp [hlast, hearlier]

/-- The next pass sees the same of streams that no value has come to. -/
theorem renews_self (hc : ss.Consistent (pass + 1)) (h : ss.Opened pass) {calm : NodeId → Prop}
    (hcalm : ∀ id x i, ss.find? id = some x → calm x.creator → ¬ ss.Arrived id i (pass + 1)) :
    Renews calm pass (pass + 1) ss ss where
  creator hid := hc.byCreator_iff.1 hid
  found hid := hid
  seen {id x} hx hcreator := by
    rw [hx, Option.map_some,
      h.visible_succ hc.ordered hx fun i => hcalm id x i hx hcreator]

end Streams

/-! ## What may be remembered -/

theorem Analysis.ne_of_isMemoizable {a : Analysis} (w : a.tree.WellFormed) {node : NodeId}
    (h : a.isMemoizable node = true) : node ≠ a.tree.root ∧ node ≠ a.tree.programBlock := by
  obtain ⟨block, hb⟩ := w.root
  constructor
  · rintro rfl
    simp [isMemoizable, hb] at h
  · rintro rfl
    simp [isMemoizable] at h

/-- What a pass takes of the pass before. -/
def Pass.taken (p : Program) (pass : Pass) (node : NodeId) : Option Value :=
  Machine.memoized? ⟨p, pass, .empty, false⟩ node

theorem Pass.taken_eq_none {p : Program} {pass : Pass} {node : NodeId}
    (h : p.analysis.isMemoizable node = false) : pass.taken p node = none := by
  cases ht : pass.taken p node with
  | none => rfl
  | some v =>
    have hm := (Machine.memoized?_eq_some_iff.1 ht).2.1
    cases hm.symm.trans h

namespace Session

open Analysis Direct Direct.Pairing

variable {s s' : Session}

/-- The memory of the newest pass is that of the first one, or what a pass before has come to when
it evaluated everything. -/
inductive Retains (s : Session) : Prop where
  | first (memo : (s.record s.newest).pass.memo = [])
  | later {pass : Pass} {streams : Streams}
      (kept : ∀ e ∈ pass.reactions, e.2.Holds Handle.Plain) (regular : streams.Regular)
      (renews : Streams.Renews (Calm s.program (s.record s.newest).pass) pass.number s.newest
        streams s.streams)
      (recomputes : ∀ node v, (s.record s.newest).pass.memo.lookup node = some v →
        s.program.analysis.isMemoizable node = true → Recomputes s.program pass streams node v)

/-- The program is plain, and its newest pass was handed what it would compute itself. -/
structure Memoizes (s : Session) : Prop where
  finished : s.Finished
  plain : s.program.analysis.Plain
  nodup : s.program.tree.topLevel.Nodup
  inTree : s.InTree
  accounted : s.Accounted
  consistent : s.streams.Consistent (s.newest + 1)
  opened : s.streams.Opened s.newest
  kept : (s.record s.newest).pass.Holds Handle.Plain
  retains : s.Retains

section
variable (a : s.Memoizes) (h : s.Sound)
include a h

/-- The newest pass takes values rightly. -/
theorem Memoizes.reuses : ∃ known, Reuses s.program (s.record s.newest).pass
    ((s.record s.newest).pass.taken s.program) s.streams known := by
  cases a.retains with
  | first memo =>
    have hnone : (s.record s.newest).pass.taken s.program = fun _ => none := by
      funext node
      simp [Pass.taken, Machine.memoized?, memo]
    exact ⟨_, hnone ▸ reuses_none _ _ _⟩
  | @later pass streams kept regular renews recomputes =>
    have hrenews : Streams.Renews (Calm s.program (s.record s.newest).pass) pass.number
        (s.record s.newest).pass.number streams s.streams := by
      rw [(h.passes _ h.newest_lt).number]
      exact renews
    refine ⟨_, inherits_reuses a.finished.wellFormed a.plain a.nodup kept regular hrenews
      fun node v htaken => ?_⟩
    obtain ⟨hv, hm, hcalm⟩ := Machine.memoized?_eq_some_iff.1 htaken
    exact ⟨recomputes node v hv hm, fair_iff.2 hcalm, hm⟩

/-- What the newest pass has remembered in the end is what its nodes come to. -/
theorem Memoizes.recomputes
    (hf : (s.machineAt s.newest (s.length s.newest)).isFinished = true) {node : NodeId} {v : Value}
    (hv : (s.machineAt s.newest (s.length s.newest)).memo.lookup node = some v)
    (hm : s.program.analysis.isMemoizable node = true) :
    Recomputes s.program (s.record s.newest).pass s.streams node v := by
  have w := a.finished.wellFormed
  obtain ⟨known, R⟩ := a.reuses h
  have hp : Prepared s.program (s.record s.newest).pass :=
    ⟨w, a.finished.code, a.inTree _ h.newest_lt⟩
  obtain ⟨left, hrun, halike⟩ := (h.passes _ h.newest_lt).retraces.run (Nat.le_refl _)
  have hbegun : Pass.run s.program (s.record s.newest).pass (s.length s.newest)
      (Pass.begun s.program s.streams) = (s.machineAt s.newest (s.length s.newest), left) := hrun
  have hnext : (s.machineAt s.newest (s.length s.newest)).next? = none :=
    (h.isLive_machineAt h.newest_lt (Nat.le_refl _)).next?_eq_none_iff.2 hf
  have htaken : ∀ streams node,
      Machine.memoized? ⟨s.program, (s.record s.newest).pass, streams, false⟩ node =
        (s.record s.newest).pass.taken s.program node := fun _ _ => rfl
  have hallows := Pass.run_recalls hp h.regular.holds htaken (by rw [hbegun]; exact hnext)
    (node, v) (by rw [hbegun]; exact Keyed.mem_of_lookup hv)
  rw [hbegun] at hallows
  obtain ⟨hroot, hblock⟩ := ne_of_isMemoizable w hm
  exact R.recomputes w a.plain a.kept.reactions h.regular (Nat.le_of_eq halike.size) hroot hblock
    hallows

/-- No pass is new. -/
theorem Memoizes.grows (g : Grows s s') (hsize : s'.passes.size = s.passes.size)
    (ha : s'.Accounted) (hc : s'.streams.Consistent (s'.newest + 1))
    (ho : s'.streams.Opened s'.newest) : s'.Memoizes := by
  have hnewest : s'.newest = s.newest := by
    unfold newest
    rw [hsize]
  have hpass : (s'.record s'.newest).pass = (s.record s.newest).pass := by
    rw [hnewest]
    exact (g.record _ h.newest_lt).2
  refine ⟨?_, ?_, ?_, g.inTree a.inTree hsize, ha, hc, ho, hpass ▸ a.kept, ?_⟩
  · constructor <;> rw [g.program]
    · exact a.finished.wellFormed
    · exact a.finished.code
  · rw [g.program]
    exact a.plain
  · rw [g.program]
    exact a.nodup
  · cases a.retains with
    | first memo => exact .first (by rw [hpass]; exact memo)
    | later kept regular renews recomputes =>
      refine .later kept regular ?_ ?_
      · rw [g.program, hpass, hnewest]
        exact renews.extends (g.streams _ (Nat.le_refl _))
      · rw [g.program, hpass]
        exact recomputes

/-- A pass that begins is handed what the newest one has come to. -/
theorem Memoizes.began (he : s.AtEnd) (hf : s.machine.isFinished = true) :
    (s.beginPass s.nextPass).Memoizes := by
  have hmachine := h.atEnd_machine he
  have hnumber : (s.record s.newest).pass.number = s.newest := (h.passes _ h.newest_lt).number
  have hsize : s.passes.size = s.newest + 1 := by
    have := h.nonempty
    unfold newest
    omega
  have hnewest : (s.beginPass s.nextPass).newest = s.newest + 1 := by
    rw [s.beginPass_newest, hsize]
  have hpass : ((s.beginPass s.nextPass).record (s.beginPass s.nextPass).newest).pass =
      s.nextPass := by
    rw [s.beginPass_newest, s.beginPass_record]
  have hstructureless : s.machine.Structureless := by
    rw [hmachine]
    exact (h.passes _ h.newest_lt).retraces.structureless (Machine.structureless_start _) a.plain
      (h.ready a.finished a.inTree h.newest_lt) a.kept h.regular (Nat.le_refl _)
  refine ⟨⟨a.finished.wellFormed, a.finished.code⟩, a.plain, a.nodup,
    a.inTree.beginPass (h.nextPass_inTree a.finished a.inTree he), a.accounted.began h, ?_, ?_, ?_, ?_⟩
  · rw [hnewest]
    exact a.consistent.mono (Nat.le_succ _)
  · rw [hnewest]
    exact fun id x v hx hv => Nat.le_succ_of_le (a.opened id x v hx hv)
  · rw [hpass]
    exact ⟨hstructureless.holds.memo, hstructureless.holds.reactions⟩
  · refine .later a.kept.reactions h.regular ?_ fun node v hv hm => ?_
    · rw [hpass, hnewest, hnumber]
      refine Streams.renews_self a.consistent a.opened fun id x i hx hcalm harrived => hcalm.1 ?_
      have hpending : id ∈ s.pending := (a.accounted.pending id).2 ⟨i, harrived⟩
      simp only [nextPass, Ascending.mem_ofList, List.mem_filterMap, Option.map_eq_some_iff]
      exact ⟨id, hpending, x, hx, rfl⟩
    · rw [hpass] at hv
      rw [hmachine] at hf
      exact a.recomputes h hf (hmachine ▸ hv) hm

end

theorem Turn.opened (t : Turn s s') (h : s.Sound) (ho : s.streams.Ordered (s.newest + 1))
    (hopened : s.streams.Opened s.newest) (hle : s.newest ≤ s'.newest) :
    s'.streams.Opened s'.newest := by
  refine hopened.prolongs ho (t.prolongs h) hle fun id x v hx hnew hv => ?_
  rw [t.made h hx hnew, (t.sound h).passNumber_eq] at hv
  cases hv
  exact Nat.le_refl _

theorem memoizes_ofProgram {p : Program} (hf : (ofProgram p).Finished) (hplain : p.analysis.Plain)
    (hnodup : p.tree.topLevel.Nodup) (notices : Option (List Notice)) :
    ({ ofProgram p with notices } : Session).Memoizes :=
  ⟨⟨hf.wellFormed, hf.code⟩, hplain, hnodup, inTree_ofProgram p notices,
    accounted_ofProgram p notices, Streams.consistent_empty _, Streams.opened_empty _,
    ⟨nofun, nofun⟩, .first rfl⟩

theorem kept_memoizes : Kept Memoizes where
  turn := by
    intro s s' h a t
    have g := t.grows h
    have ha := kept_accounted.turn h a.accounted t
    have hc := t.consistent h (h.passNumber_eq ▸ a.consistent)
    rw [(t.sound h).passNumber_eq] at hc
    have ho := t.opened h a.accounted.ordered a.opened g.newest_le
    cases t with
    | placed => exact a.grows h g rfl ha hc ho
    | stepped => exact a.grows h g (s.stepped_size _ _ _) ha hc ho
    | began atEnd finished => exact a.began h atEnd finished
    | told => exact a.grows h g rfl ha hc ho
  tick := by
    intro s h a now
    have hnumber : s.passNumber = s.newest := h.passNumber_eq
    have hstreams : (s.tick now).2.streams = (s.streams.tick now (s.newest + 1)).2 := by
      rw [← hnumber]
      rfl
    refine a.grows h (h.grows_tick now) rfl (a.accounted.tick h now) ?_ ?_
    · rw [hstreams]
      exact a.consistent.tick (Nat.le_refl _) now
    · rw [hstreams]
      refine a.opened.prolongs a.accounted.ordered (s.streams.prolongs_tick now _) (Nat.le_refl _)
        fun id x v hx hnew => ?_
      rw [Streams.find?_tick, hnew] at hx
      cases hx
  renewed := fun _ a =>
    memoizes_ofProgram ⟨a.finished.wellFormed, a.finished.code⟩ a.plain a.nodup _

end Session
end ReactiveLang
