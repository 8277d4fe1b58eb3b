import ReactiveLang.Proofs.Eval.Layout
import ReactiveLang.Proofs.Eval.Memory
import ReactiveLang.Session.Run

/-!
# What a session keeps true

`Session.machineAt place offset` is the machine of a pass after so many steps, computed over the
streams as they are now. A session is `Sound` when every pass retraces its part of the log, all but
the newest pass are finished, each kept machine is the one at its place, and so is the machine at
the cursor.

* `Sound.placed`: the cursor may be at any step of any pass.
* `Sound.seek`: it gets there from anywhere, whatever machines were kept.
* `Sound.moveTo`: `moveTo` finds the pass that leads to a place of the log.
-/

namespace ReactiveLang.Session

variable (s : Session)

/-- The place in the log where a pass ends so far. -/
def stop (place : Nat) : Nat :=
  if place + 1 < s.passes.size then (s.record (place + 1)).start else s.log.size

/-- The number of logged steps of a pass. -/
def length (place : Nat) : Nat := s.stop place - (s.record place).start

/-- What the steps of a pass look at when they are taken again. -/
def world (place : Nat) : World := ⟨s.program, (s.record place).pass, s.streams, true⟩

/-- The machine of a pass after so many steps. -/
def machineAt (place offset : Nat) : Machine :=
  (Machine.start s.program).after (s.world place) offset

/-- The session with its cursor in a pass, after so many of its steps. -/
def placed (place offset : Nat) : Session :=
  { s with cursor := place, machine := s.machineAt place offset }

/-- What is true of a pass. -/
structure SoundPass (place : Nat) : Prop where
  number : (s.record place).pass.number = place
  start_le : (s.record place).start ≤ s.stop place
  known : (s.record place).pass.Holds (Handle.Known s.streams.size)
  recallable : Recallable (s.record place).pass.memo
  /-- Its steps are those in the log. -/
  retraces : (Machine.start s.program).Retraces (s.world place) (s.length place)
    fun i => s.log[(s.record place).start + i]?
  /-- A pass that another one follows is finished. -/
  finished : place < s.newest → (s.machineAt place (s.length place)).isFinished = true
  /-- Every machine that was kept is the one at its place, and no machine is missing. -/
  snapshots : (s.record place).snapshots.size =
      s.length place / s.program.config.snapshotInterval + 1 ∧
    ∀ j, j ≤ s.length place / s.program.config.snapshotInterval →
      (s.record place).snapshots[j]? =
        some (s.machineAt place (j * s.program.config.snapshotInterval))

structure Sound : Prop where
  /-- A pass has a first step. -/
  live : (Machine.start s.program).IsLive
  interval : 0 < s.program.config.snapshotInterval
  regular : s.streams.Regular
  nonempty : 0 < s.passes.size
  first : (s.record 0).start = 0
  passes : ∀ place < s.passes.size, SoundPass s place
  /-- The result is that of the newest pass, once that is finished. -/
  result : s.result =
    let m := s.machineAt s.newest (s.length s.newest)
    if m.isFinished then some (m.result.getD .nothing) else none
  cursor : s.cursor < s.passes.size
  index : s.machine.index ≤ s.length s.cursor
  machine : s.machine = s.machineAt s.cursor s.machine.index

variable {s}

theorem start_known (p : Program) (n : Nat) : (Machine.start p).Holds (Handle.Known n) :=
  Machine.holds_start p

section
variable (h : s.Sound)
include h

theorem Sound.newest_lt : s.newest < s.passes.size :=
  Nat.sub_lt h.nonempty Nat.one_pos

theorem Sound.stop_newest : s.stop s.newest = s.log.size := by
  have := h.nonempty
  rw [stop, if_neg]
  unfold newest
  omega

theorem Sound.stop_of_lt {place : Nat} (hp : place < s.newest) :
    s.stop place = (s.record (place + 1)).start := by
  have := h.nonempty
  rw [stop, if_pos]
  unfold newest at hp
  omega

theorem Sound.index_machineAt {place offset : Nat} (hp : place < s.passes.size)
    (ho : offset ≤ s.length place) : (s.machineAt place offset).index = offset :=
  ((h.passes place hp).retraces.index ho).trans (Nat.zero_add offset)

theorem Sound.isLive_machineAt {place offset : Nat} (hp : place < s.passes.size)
    (ho : offset ≤ s.length place) : (s.machineAt place offset).IsLive :=
  (h.passes place hp).retraces.isLive h.live ho

theorem Sound.not_isFinished {place offset : Nat} (hp : place < s.passes.size)
    (ho : offset < s.length place) : (s.machineAt place offset).isFinished = false :=
  (h.passes place hp).retraces.not_isFinished h.live ho

/-- A pass that another one follows has taken a step. -/
theorem Sound.start_lt {place : Nat} (hp : place < s.newest) :
    (s.record place).start < (s.record (place + 1)).start := by
  have hlt : place < s.passes.size := Nat.lt_trans hp h.newest_lt
  have hpass := h.passes place hlt
  rw [← h.stop_of_lt hp]
  rcases Nat.lt_or_ge (s.record place).start (s.stop place) with hl | hge
  · exact hl
  · have hf := hpass.finished hp
    rw [length, Nat.sub_eq_zero_of_le hge] at hf
    cases hf

/-- Passes lie in the log one after the other. -/
theorem Sound.stop_le {place later : Nat} (hl : later < s.passes.size) (hp : place < later) :
    s.stop place ≤ (s.record later).start := by
  induction later with
  | zero => omega
  | succ later ih =>
    have hn : later < s.newest := by unfold newest; omega
    rcases Nat.lt_succ_iff_lt_or_eq.1 hp with hp | rfl
    · exact Nat.le_trans (ih (by omega) hp) (Nat.le_of_lt (h.start_lt hn))
    · exact Nat.le_of_eq (h.stop_of_lt hn)

theorem Sound.start_le_size {place : Nat} (hp : place < s.passes.size) :
    (s.record place).start ≤ s.stop place ∧ s.stop place ≤ s.log.size := by
  refine ⟨(h.passes place hp).start_le, ?_⟩
  rcases Nat.lt_or_ge place s.newest with hl | hge
  · have h1 := h.stop_le h.newest_lt hl
    have h2 := (h.passes s.newest h.newest_lt).start_le
    rw [h.stop_newest] at h2
    omega
  · have : place = s.newest := by unfold newest at hge ⊢; omega
    exact Nat.le_of_eq (this ▸ h.stop_newest)

/-! ## The cursor -/

/-- The cursor may be at any step of any pass. -/
theorem Sound.placed {place offset : Nat} (hp : place < s.passes.size)
    (ho : offset ≤ s.length place) : (s.placed place offset).Sound :=
  have hi : (s.placed place offset).machine.index = offset := h.index_machineAt hp ho
  { live := h.live, interval := h.interval, regular := h.regular, nonempty := h.nonempty
    first := h.first
    passes := fun k hk =>
      ⟨(h.passes k hk).number, (h.passes k hk).start_le, (h.passes k hk).known,
        (h.passes k hk).recallable, (h.passes k hk).retraces, (h.passes k hk).finished,
        (h.passes k hk).snapshots⟩
    result := h.result
    cursor := hp
    index := by rw [hi]; exact ho
    machine := by rw [hi]; rfl }

/-- A sound session is at some step of some pass. -/
theorem Sound.eq_placed : s = s.placed s.cursor s.machine.index := by
  have hm := h.machine
  unfold Session.placed
  rw [← hm]

/-- Below the end of a pass, the step in the log is taken again. -/
theorem Sound.advance_placed {place offset : Nat} (hp : place < s.passes.size)
    (ho : offset < s.length place) : ∃ step, s.log[(s.record place).start + offset]? = some step ∧
      (s.placed place offset).advance true = some (step, s.placed place (offset + 1)) := by
  obtain ⟨step, h1, h2⟩ := (h.passes place hp).retraces offset ho
  refine ⟨step, h1, ?_⟩
  have hs : (s.machineAt place offset).step (s.world place) =
      some (step, s.machineAt place (offset + 1), s.streams) := h2
  simp only [advance, Session.placed, record]
  rw [show (⟨s.program, (s.passes[place]?.getD default).pass, s.streams, true⟩ : World) =
    s.world place from rfl, hs]

theorem Sound.replay_placed {place offset count : Nat} (hp : place < s.passes.size)
    (ho : offset + count ≤ s.length place) :
    replay count (s.placed place offset) = s.placed place (offset + count) := by
  induction count generalizing offset with
  | zero => rfl
  | succ count ih =>
    obtain ⟨step, -, ha⟩ := h.advance_placed hp (show offset < s.length place by omega)
    rw [replay, ha]
    dsimp only
    rw [ih (by omega), Nat.add_right_comm, Nat.add_assoc]

theorem Sound.restore {place snapshot : Nat} (hp : place < s.passes.size)
    (hs : snapshot ≤ s.length place / s.program.config.snapshotInterval) :
    s.restore place snapshot = s.placed place (snapshot * s.program.config.snapshotInterval) := by
  simp only [Session.restore, Session.placed, (h.passes place hp).snapshots.2 snapshot hs,
    Option.getD_some]

/-- The cursor gets to any step of any pass, from anywhere and whatever machines were kept. -/
theorem Sound.seek {place offset : Nat} (hp : place < s.passes.size)
    (ho : offset ≤ s.length place) : s.seek place offset = s.placed place offset := by
  unfold Session.seek
  by_cases hm : s.mustRestore place offset = true
  · have hle := Nat.div_mul_le_self offset s.program.config.snapshotInterval
    have hi := h.index_machineAt hp (Nat.le_trans hle ho)
    rw [if_pos hm, h.restore hp (Nat.div_le_div_right ho)]
    dsimp only
    rw [show (s.placed place _).machine.index = _ from hi, h.replay_placed hp (by omega)]
    congr 1
    omega
  · obtain ⟨⟨rfl, hi⟩, -⟩ : (place = s.cursor ∧ s.machine.index ≤ offset) ∧ _ := by
      simpa [mustRestore] using hm
    rw [if_neg hm]
    have hr : replay (offset - s.machine.index) (s.placed s.cursor s.machine.index) =
        s.placed s.cursor (s.machine.index + (offset - s.machine.index)) :=
      h.replay_placed h.cursor (by omega)
    rw [← h.eq_placed] at hr
    rw [hr]
    congr 1
    omega

/-! ## Places in the log -/

omit h in
/-- Of the first passes, the last one that starts before a place in the log. -/
theorem passBefore_spec (target : Nat) {n : Nat} (hn : 0 < n) :
    s.passBefore target n < n ∧
      (∀ k, s.passBefore target n < k → k < n → target ≤ (s.record k).start) ∧
      ((s.record (s.passBefore target n)).start < target ∨ s.passBefore target n = 0) := by
  induction n with
  | zero => omega
  | succ n ih =>
    unfold passBefore
    split
    · rename_i hlt
      exact ⟨Nat.lt_succ_self n, fun k h1 h2 => by omega, .inl hlt⟩
    · rename_i hge
      rcases Nat.eq_zero_or_pos n with rfl | hpos
      · exact ⟨Nat.one_pos, fun k h1 h2 => by omega, .inr rfl⟩
      · obtain ⟨h1, h2, h3⟩ := ih hpos
        refine ⟨Nat.lt_succ_of_lt h1, fun k hk hkn => ?_, h3⟩
        rcases Nat.lt_succ_iff_lt_or_eq.1 hkn with hkn | rfl
        · exact h2 k hk hkn
        · omega

omit h in
/-- The pass that leads to a place in the log. -/
def passTo (s : Session) (target : Nat) : Nat := s.passBefore target s.passes.size

/-- The pass that leads to a place in the log has that place. -/
theorem Sound.passTo_spec {target : Nat} (ht : target ≤ s.log.size) :
    s.passTo target < s.passes.size ∧ (s.record (s.passTo target)).start ≤ target ∧
      target ≤ s.stop (s.passTo target) ∧
      ((s.record (s.passTo target)).start < target ∨ s.passTo target = 0) := by
  obtain ⟨h1, h2, h3⟩ := s.passBefore_spec target h.nonempty
  refine ⟨h1, ?_, ?_, h3⟩
  · rcases h3 with h3 | h3
    · exact Nat.le_of_lt h3
    · rw [show s.passTo target = 0 from h3, h.first]
      exact Nat.zero_le _
  · unfold stop
    split
    · rename_i hlt
      exact h2 _ (Nat.lt_succ_self _) hlt
    · exact ht

/-- `moveTo` puts the cursor where the log has so many steps. -/
theorem Sound.moveTo (index : Nat) :
    s.moveTo index = s.placed (s.passTo (min index s.log.size))
      (min index s.log.size - (s.record (s.passTo (min index s.log.size))).start) := by
  obtain ⟨h1, h2, h3, -⟩ := h.passTo_spec (Nat.min_le_right index s.log.size)
  exact h.seek h1 (Nat.sub_le_sub_right h3 _)

theorem Sound.moveTo_position (index : Nat) : (s.moveTo index).position = min index s.log.size := by
  obtain ⟨h1, h2, h3, -⟩ := h.passTo_spec (Nat.min_le_right index s.log.size)
  have hi := h.index_machineAt h1 (Nat.sub_le_sub_right h3 _)
  rw [h.moveTo]
  unfold position
  rw [show (s.placed _ _).machine.index = _ from hi]
  exact Nat.add_sub_of_le h2

theorem Sound.moveTo_sound (index : Nat) : (s.moveTo index).Sound := by
  obtain ⟨h1, h2, h3, -⟩ := h.passTo_spec (Nat.min_le_right index s.log.size)
  rw [h.moveTo]
  exact h.placed h1 (Nat.sub_le_sub_right h3 _)

end
end ReactiveLang.Session
