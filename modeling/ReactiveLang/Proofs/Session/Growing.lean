import ReactiveLang.Proofs.Session.Sound

/-!
# How a session grows

A session grows by new steps at the end of the log, by new passes and by new values of streams.
What it could be taken back to before, it can be taken back to afterwards (`Grows.machineAt`), and
it stays sound: `Sound.tick`, `Sound.beginPass`, `Sound.logged`.
-/

namespace ReactiveLang.Session

/-- All passes of `s` are in `s'` as well, over streams that those passes cannot tell apart. -/
structure Grows (s s' : Session) : Prop where
  program : s'.program = s.program
  streams : ∀ pass ≤ s.newest, s.streams.Extends s'.streams pass
  regular : s'.streams.Regular
  passes : s.passes.size ≤ s'.passes.size
  record : ∀ k < s.passes.size, (s'.record k).start = (s.record k).start ∧
    (s'.record k).pass = (s.record k).pass
  /-- New passes begin after the old log. -/
  later : ∀ k < s'.passes.size, s.passes.size ≤ k → s.log.size ≤ (s'.record k).start
  log : ∀ i < s.log.size, s'.log[i]? = s.log[i]?

variable {s s' : Session}

theorem lt_length {k i : Nat} (hi : i < s.length k) : (s.record k).start + i < s.stop k := by
  unfold length at hi
  omega

section
variable (h : s.Sound) (g : Grows s s') {k : Nat} (hk : k < s.passes.size)
include h g hk

omit h in
theorem Grows.world : s'.world k = (s.world k).again s'.streams := by
  simp only [Session.world, World.again, g.program, (g.record k hk).2]

theorem Grows.extends_world :
    (s.world k).streams.Extends s'.streams (s.world k).pass.number := by
  refine g.streams _ ?_
  rw [show (s.world k).pass.number = k from (h.passes k hk).number]
  unfold newest
  omega

/-- A session that has grown can be taken back to the same machines. -/
theorem Grows.machineAt {i : Nat} (hi : i ≤ s.length k) : s'.machineAt k i = s.machineAt k i := by
  have hp := h.passes k hk
  unfold Session.machineAt
  rw [g.world hk, g.program]
  exact hp.retraces.after_again h.regular (start_known _ _) hp.known (g.extends_world h hk) hi

theorem Grows.known {n : Nat} (hn : s'.streams.size ≤ n) :
    (s'.record k).pass.Holds (Handle.Known n) := by
  rw [(g.record k hk).2]
  have hle := (g.streams 0 (Nat.zero_le _)).size_le
  exact (h.passes k hk).known.mono (Handle.Known.mono (Nat.le_trans hle hn))

theorem Grows.retraces : (Machine.start s'.program).Retraces (s'.world k) (s.length k)
    fun i => s'.log[(s'.record k).start + i]? := by
  have hp := h.passes k hk
  rw [g.world hk, g.program, (g.record k hk).1]
  refine (hp.retraces.again h.regular (start_known _ _) hp.known (g.extends_world h hk)).congr ?_
  intro i hi
  have h1 := lt_length hi
  have h2 := (h.start_le_size hk).2
  exact g.log _ (by omega)

/-- A pass that has got no new step is as sound as before. -/
theorem Grows.soundPass (hstop : s'.stop k = s.stop k)
    (hsnap : (s'.record k).snapshots = (s.record k).snapshots)
    (hlast : k < s'.newest → (s.machineAt k (s.length k)).isFinished = true) :
    s'.SoundPass k := by
  have hp := h.passes k hk
  obtain ⟨hstart, hpass⟩ := g.record k hk
  have hlen : s'.length k = s.length k := by unfold length; rw [hstop, hstart]
  refine ⟨by rw [hpass]; exact hp.number, ?_, g.known h hk (Nat.le_refl _),
    by rw [hpass]; exact hp.recallable, ?_, ?_, ?_⟩
  · rw [hstart, hstop]; exact hp.start_le
  · rw [hlen]; exact g.retraces h hk
  · intro hlt
    rw [hlen, g.machineAt h hk (Nat.le_refl _)]
    exact hlast hlt
  · rw [hlen, hsnap, g.program]
    refine ⟨hp.snapshots.1, fun j hj => ?_⟩
    have hle := Nat.le_trans (Nat.mul_le_mul_right _ hj) (Nat.div_mul_le_self _ _)
    rw [hp.snapshots.2 j hj, g.machineAt h hk hle]

end

/-- Nothing that a session can be taken back to has changed. -/
theorem Sound.grows_same (h : s.Sound) (hprog : s'.program = s.program)
    (hstr : s'.streams = s.streams) (hpass : s'.passes = s.passes) (hlog : s'.log = s.log) :
    Grows s s' := by
  have hrec : ∀ k, s'.record k = s.record k := fun k => by unfold record; rw [hpass]
  refine ⟨hprog, fun pass _ => by rw [hstr]; exact .refl _ _, by rw [hstr]; exact h.regular,
    Nat.le_of_eq (by rw [hpass]), fun k _ => by rw [hrec]; exact ⟨rfl, rfl⟩, fun k h1 h2 => ?_,
    fun i _ => by rw [hlog]⟩
  rw [hpass] at h1
  omega

/-! ## The pass that leads to a place in the log -/

/-- There is one pass only that leads to a place in the log. -/
theorem passTo_unique (h : s.Sound) {target place : Nat} (hp : place < s.passes.size)
    (hafter : ∀ k, place < k → k < s.passes.size → target ≤ (s.record k).start)
    (hbefore : (s.record place).start < target ∨ place = 0) : s.passTo target = place := by
  obtain ⟨h1, h2, h3⟩ := s.passBefore_spec target h.nonempty
  rcases Nat.lt_trichotomy (s.passTo target) place with hlt | heq | hgt
  · have := h2 place hlt hp
    omega
  · exact heq
  · have := hafter _ hgt h1
    unfold passTo at this hgt
    omega

theorem Grows.passTo (h : s.Sound) (h' : s'.Sound) (g : Grows s s') {target : Nat}
    (ht : target ≤ s.log.size) : s'.passTo target = s.passTo target := by
  obtain ⟨h1, h2, h3⟩ := s.passBefore_spec target h.nonempty
  refine passTo_unique h' (Nat.lt_of_lt_of_le h1 g.passes) (fun k hk hks => ?_) ?_
  · rcases Nat.lt_or_ge k s.passes.size with hlt | hge
    · rw [(g.record k hlt).1]
      exact h2 k hk hlt
    · exact Nat.le_trans ht (g.later k hks hge)
  · rw [show s.passTo target = s.passBefore target s.passes.size from rfl, (g.record _ h1).1]
    exact h3

/-- The machine at a place in the log. -/
def machineOf (s : Session) (target : Nat) : Machine :=
  s.machineAt (s.passTo target) (target - (s.record (s.passTo target)).start)

/-- The machines at all places in the log stay the same. -/
theorem Grows.machineOf (h : s.Sound) (h' : s'.Sound) (g : Grows s s') {target : Nat}
    (ht : target ≤ s.log.size) : s'.machineOf target = s.machineOf target := by
  obtain ⟨h1, -, h3, -⟩ := h.passTo_spec ht
  unfold Session.machineOf
  rw [g.passTo h h' ht, (g.record _ h1).1]
  exact g.machineAt h h1 (Nat.sub_le_sub_right h3 _)

/-! ## Ticks -/

theorem Sound.grows_tick (h : s.Sound) (now : Float) : Grows s (s.tick now).2 where
  program := rfl
  streams := fun pass hp => by
    have hn : s.passNumber = s.newest := (h.passes _ h.newest_lt).number
    refine s.streams.extends_tick now ?_
    rw [hn]
    exact Nat.lt_succ_of_le hp
  regular := h.regular.tick now _
  passes := Nat.le_refl _
  record := fun _ _ => ⟨rfl, rfl⟩
  later := fun _ h1 h2 => absurd h1 (Nat.not_lt_of_le h2)
  log := fun _ _ => rfl

theorem Sound.tick (h : s.Sound) (now : Float) : (s.tick now).2.Sound := by
  have g := h.grows_tick now
  have hm := fun k hk => g.machineAt h (k := k) hk (Nat.le_refl _)
  exact
    { live := h.live, interval := h.interval, regular := g.regular, nonempty := h.nonempty
      first := h.first
      passes := fun k hk => g.soundPass h hk rfl rfl (h.passes k hk).finished
      result := by
        have hr := h.result
        dsimp only at hr ⊢
        rw [show (s.tick now).2.newest = s.newest from rfl,
          show (s.tick now).2.length s.newest = s.length s.newest from rfl, hm _ h.newest_lt]
        exact hr
      cursor := h.cursor
      index := h.index
      machine := h.machine.trans (g.machineAt h h.cursor h.index).symm }

/-! ## New passes -/

theorem Sound.grows_beginPass (h : s.Sound) (pass : Pass) : Grows s (s.beginPass pass) where
  program := rfl
  streams := fun _ _ => .refl _ _
  regular := h.regular
  passes := by simp [beginPass]
  record := fun k hk => by
    simp [Session.record, beginPass, Array.getElem?_push_lt hk, Array.getElem?_eq_getElem hk]
  later := fun k h1 h2 => by
    obtain rfl : k = s.passes.size := by
      have : (s.beginPass pass).passes.size = s.passes.size + 1 := by simp [beginPass]
      omega
    simp [Session.record, beginPass]
  log := fun _ _ => rfl

theorem beginPass_size (s : Session) (pass : Pass) :
    (s.beginPass pass).passes.size = s.passes.size + 1 := by
  simp [beginPass]

theorem beginPass_newest (s : Session) (pass : Pass) :
    (s.beginPass pass).newest = s.passes.size := by
  unfold newest
  rw [beginPass_size]
  rfl

theorem beginPass_record (s : Session) (pass : Pass) : (s.beginPass pass).record s.passes.size =
    ⟨s.log.size, pass, #[Machine.start s.program]⟩ := by
  simp [Session.record, beginPass]

theorem beginPass_stop (s : Session) (pass : Pass) :
    (s.beginPass pass).stop s.passes.size = s.log.size := by
  rw [stop, beginPass_size, if_neg (Nat.lt_irrefl _)]
  rfl

theorem beginPass_length (s : Session) (pass : Pass) :
    (s.beginPass pass).length s.passes.size = 0 := by
  rw [length, beginPass_stop, beginPass_record]
  exact Nat.sub_self _

/-- A finished session may begin the next pass. -/
theorem Sound.beginPass (h : s.Sound) {pass : Pass} (hn : pass.number = s.passes.size)
    (hp : pass.Holds (Handle.Known s.streams.size)) (hm : Recallable pass.memo)
    (hf : (s.machineAt s.newest (s.length s.newest)).isFinished = true) :
    (s.beginPass pass).Sound := by
  have g := h.grows_beginPass pass
  have hsize := s.beginPass_size pass
  have hnew := s.beginPass_record pass
  have hstopNew := s.beginPass_stop pass
  have hlen := s.beginPass_length pass
  have hnewest := s.beginPass_newest pass
  have hstop : ∀ k < s.passes.size, (s.beginPass pass).stop k = s.stop k := by
    intro k hk
    unfold stop
    rw [hsize, if_pos (by omega)]
    split
    · rename_i hlt
      exact (g.record _ hlt).1
    · rename_i hge
      rw [show k + 1 = s.passes.size by omega, hnew]
  have hold : ∀ k < s.passes.size, (s.beginPass pass).SoundPass k := by
    intro k hk
    refine g.soundPass h hk (hstop k hk) ?_ fun _ => ?_
    · simp only [Session.record, Session.beginPass, Array.getElem?_push_lt hk,
        Array.getElem?_eq_getElem hk]
    · rcases Nat.lt_or_ge k s.newest with hlt | hge
      · exact (h.passes k hk).finished hlt
      · have : k = s.newest := by unfold newest at hge ⊢; omega
        rw [this]
        exact hf
  exact
    { live := h.live, interval := h.interval, regular := h.regular
      nonempty := by omega
      first := ((g.record 0 h.nonempty).1).trans h.first
      passes := fun k hk => by
        rcases Nat.lt_or_ge k s.passes.size with hlt | hge
        · exact hold k hlt
        · obtain rfl : k = s.passes.size := by omega
          refine ⟨by rw [hnew]; exact hn, Nat.le_of_eq (by rw [hstopNew, hnew]), by rw [hnew]; exact hp,
            by rw [hnew]; exact hm, ?_, ?_, ?_⟩
          · rw [hlen]
            exact fun i hi => absurd hi (Nat.not_lt_zero i)
          · intro hlt
            omega
          · rw [hlen, hnew, Nat.zero_div]
            refine ⟨rfl, fun j hj => ?_⟩
            obtain rfl : j = 0 := by omega
            rw [Nat.zero_mul]
            rfl
      result := by
        dsimp only
        rw [hnewest, hlen]
        rfl
      cursor := by rw [hsize]; exact Nat.lt_succ_self _
      index := Nat.zero_le _
      machine := rfl }

/-! ## New steps -/

/-- The session with a new step taken and logged. -/
def stepped (s : Session) (step : Step) (machine : Machine) (streams : Streams) : Session :=
  logged { s with machine, streams } step

/-- What the step keeps of the session. -/
theorem stepped_fields (s : Session) (step : Step) (m : Machine) (streams : Streams) :
    let s' := s.stepped step m streams
    s'.program = s.program ∧ s'.streams = streams ∧ s'.cursor = s.cursor ∧ s'.machine = m ∧
      s'.log = s.log.push step ∧ s'.history = s.history ∧ s'.pending = s.pending ∧
      s'.notices = s.notices ∧
      s'.result = if m.isFinished then some (m.result.getD .nothing) else s.result := by
  unfold stepped logged keepSnapshot
  dsimp only
  split <;> split <;> simp_all

theorem stepped_passes (s : Session) (step : Step) (m : Machine) (streams : Streams) :
    (s.stepped step m streams).passes =
      if m.index % s.program.config.snapshotInterval = 0 then
        s.passes.modify s.cursor fun r =>
          if m.index / s.program.config.snapshotInterval = r.snapshots.size then
            { r with snapshots := r.snapshots.push m }
          else r
      else s.passes := by
  unfold stepped logged keepSnapshot
  dsimp only
  split <;> split <;> simp_all

theorem stepped_size (s : Session) (step : Step) (m : Machine) (streams : Streams) :
    (s.stepped step m streams).passes.size = s.passes.size := by
  rw [stepped_passes]
  split
  · exact Array.size_modify
  · rfl

theorem stepped_newest (s : Session) (step : Step) (m : Machine) (streams : Streams) :
    (s.stepped step m streams).newest = s.newest := by
  unfold newest
  rw [stepped_size]

theorem stepped_record (s : Session) (step : Step) (m : Machine) (streams : Streams) {k : Nat}
    (hk : k < s.passes.size) :
    (s.stepped step m streams).record k =
      { s.record k with
        snapshots :=
          if m.index % s.program.config.snapshotInterval = 0 ∧ k = s.cursor ∧
              m.index / s.program.config.snapshotInterval = (s.record k).snapshots.size then
            (s.record k).snapshots.push m
          else (s.record k).snapshots } := by
  unfold Session.record
  rw [stepped_passes]
  by_cases hi : m.index % s.program.config.snapshotInterval = 0
  · rw [if_pos hi, Array.getElem?_modify, Array.getElem?_eq_getElem hk]
    by_cases hc : s.cursor = k
    · subst hc
      simp only [hi, if_true, true_and, Option.map_some, Option.getD_some]
      split <;> rfl
    · rw [if_neg hc, if_neg (fun h => hc h.2.1.symm)]
  · rw [if_neg hi, if_neg (fun h => hi h.1)]

theorem stepped_record_fields (s : Session) (step : Step) (m : Machine) (streams : Streams)
    (k : Nat) :
    ((s.stepped step m streams).record k).start = (s.record k).start ∧
      ((s.stepped step m streams).record k).pass = (s.record k).pass := by
  rcases Nat.lt_or_ge k s.passes.size with hlt | hge
  · rw [stepped_record s step m streams hlt]
    exact ⟨rfl, rfl⟩
  · unfold Session.record
    rw [Array.getElem?_eq_none hge,
      Array.getElem?_eq_none (by rw [s.stepped_size]; exact hge)]
    exact ⟨rfl, rfl⟩

theorem grows_stepped {step : Step} {m : Machine} {streams : Streams}
    (hx : ∀ pass, s.streams.Extends streams pass) (hr : streams.Regular) :
    Grows s (s.stepped step m streams) := by
  obtain ⟨hprog, hstr, -, -, hlog, -⟩ := s.stepped_fields step m streams
  refine ⟨hprog, by rw [hstr]; exact fun pass _ => hx pass, by rw [hstr]; exact hr, ?_, ?_, ?_, ?_⟩
  · exact Nat.le_of_eq (s.stepped_size step m streams).symm
  · intro k _
    exact s.stepped_record_fields step m streams k
  · intro k h1 h2
    rw [s.stepped_size] at h1
    omega
  · intro i hi
    rw [hlog, Array.getElem?_push_lt hi, Array.getElem?_eq_getElem hi]

/-- The cursor is at the end of the newest pass. -/
structure AtEnd (s : Session) : Prop where
  cursor : s.cursor = s.newest
  index : s.machine.index = s.length s.newest

theorem Sound.atEnd_machine (h : s.Sound) (he : s.AtEnd) :
    s.machine = s.machineAt s.newest (s.length s.newest) := by
  rw [← he.index, ← he.cursor]
  exact h.machine

section
variable (h : s.Sound) (he : s.AtEnd) {step : Step} {m : Machine} {streams : Streams}
  (hs : s.machine.step ⟨s.program, (s.record s.cursor).pass, s.streams, false⟩ =
    some (step, m, streams))
include h he hs

omit he in
theorem grows_step : Grows s (s.stepped step m streams) := by
  obtain ⟨hx, hr⟩ := Machine.step_streams hs
  exact grows_stepped hx (hr h.regular)

omit he in
/-- The newest pass is one step longer. -/
theorem length_step :
    (s.stepped step m streams).length s.newest = s.length s.newest + 1 := by
  have g := grows_step h hs
  have hlog : (s.stepped step m streams).log.size = s.log.size + 1 := by
    rw [(s.stepped_fields step m streams).2.2.2.2.1, Array.size_push]
  have hstop : (s.stepped step m streams).stop s.newest = s.log.size + 1 := by
    have := h.nonempty
    rw [stop, s.stepped_size, if_neg (by unfold newest; omega), hlog]
  have h1 := (h.passes _ h.newest_lt).start_le
  unfold length
  rw [hstop, (g.record _ h.newest_lt).1, h.stop_newest]
  rw [h.stop_newest] at h1
  omega

/-- The new step can be taken again. -/
theorem step_step :
    ((s.stepped step m streams).machineAt s.newest (s.length s.newest)).step
        ((s.stepped step m streams).world s.newest) =
      some (step, m, (s.stepped step m streams).streams) := by
  have g := grows_step h hs
  have hpass := h.passes _ h.newest_lt
  have hk := hpass.retraces.known h.regular (start_known _ _) hpass.known (Nat.le_refl _)
  rw [he.cursor, h.atEnd_machine he] at hs
  rw [g.machineAt h h.newest_lt (Nat.le_refl _), g.world h.newest_lt,
    (s.stepped_fields step m streams).2.1]
  exact Machine.step_again (w := ⟨s.program, (s.record s.newest).pass, s.streams, false⟩)
    hk hpass.known h.regular hs (.refl _ _)

theorem machineAt_step :
    (s.stepped step m streams).machineAt s.newest (s.length s.newest + 1) = m :=
  Machine.after_succ (step_step h he hs)

theorem retraces_step : (Machine.start (s.stepped step m streams).program).Retraces
    ((s.stepped step m streams).world s.newest) ((s.stepped step m streams).length s.newest)
    fun i => (s.stepped step m streams).log[((s.stepped step m streams).record s.newest).start +
      i]? := by
  have g := grows_step h hs
  have h1 := (h.passes _ h.newest_lt).start_le
  rw [h.stop_newest] at h1
  have hend : (s.record s.newest).start + s.length s.newest = s.log.size := by
    unfold length
    rw [h.stop_newest]
    omega
  rw [length_step h hs]
  refine (g.retraces h h.newest_lt).snoc ?_ (step_step h he hs)
  rw [(g.record _ h.newest_lt).1, hend, (s.stepped_fields step m streams).2.2.2.2.1,
    Array.getElem?_push_size]

/-- The machine after the new step is kept if it is time to. -/
theorem snapshots_step :
    let s' := s.stepped step m streams
    (s'.record s.newest).snapshots.size =
        s'.length s.newest / s.program.config.snapshotInterval + 1 ∧
      ∀ j ≤ s'.length s.newest / s.program.config.snapshotInterval,
        (s'.record s.newest).snapshots[j]? =
          some (s'.machineAt s.newest (j * s.program.config.snapshotInterval)) := by
  have g := grows_step h hs
  obtain ⟨hsize, hsnap⟩ := (h.passes _ h.newest_lt).snapshots
  have hindex : m.index = s.length s.newest + 1 := by
    rw [(Machine.step_isLive hs).2, he.index]
  have hlast := machineAt_step h he hs
  have hdiv : (s.length s.newest + 1) / s.program.config.snapshotInterval = _ := Nat.succ_div
  dsimp only
  rw [length_step h hs, s.stepped_record step m streams h.newest_lt, hindex, hsize]
  have hold : ∀ j ≤ s.length s.newest / s.program.config.snapshotInterval,
      (s.record s.newest).snapshots[j]? = some ((s.stepped step m streams).machineAt s.newest
        (j * s.program.config.snapshotInterval)) := by
    intro j hj
    have hle := Nat.le_trans (Nat.mul_le_mul_right _ hj) (Nat.div_mul_le_self _ _)
    rw [hsnap j hj, g.machineAt h h.newest_lt hle]
  by_cases hd : s.program.config.snapshotInterval ∣ s.length s.newest + 1
  · rw [if_pos hd] at hdiv
    rw [if_pos ⟨Nat.mod_eq_zero_of_dvd hd, he.cursor.symm, hdiv⟩]
    refine ⟨by rw [Array.size_push, hsize, hdiv], fun j hj => ?_⟩
    rcases Nat.lt_or_ge j (s.record s.newest).snapshots.size with hlt | hge
    · rw [Array.getElem?_push_lt hlt, ← Array.getElem?_eq_getElem hlt]
      exact hold j (by omega)
    · obtain rfl : j = (s.record s.newest).snapshots.size := by omega
      rw [Array.getElem?_push_size, hsize, ← hdiv, Nat.div_mul_cancel hd, hlast]
  · rw [if_neg hd] at hdiv
    rw [if_neg fun hc => hd (Nat.dvd_of_mod_eq_zero hc.1)]
    exact ⟨by rw [hsize, hdiv], fun j hj => hold j (by omega)⟩

theorem soundPass_step {k : Nat} (hk : k < s.passes.size) :
    (s.stepped step m streams).SoundPass k := by
  have g := grows_step h hs
  have hnewest := s.stepped_newest step m streams
  have hpass := h.passes k hk
  rcases Nat.lt_or_ge k s.newest with hlt | hge
  · refine g.soundPass h hk ?_ ?_ fun _ => hpass.finished hlt
    · have h1 : k + 1 < s.passes.size := by unfold newest at hlt; omega
      unfold stop
      rw [s.stepped_size, if_pos h1, if_pos h1, (g.record _ h1).1]
    · rw [s.stepped_record step m streams hk]
      exact if_neg fun hc => by rw [he.cursor] at hc; omega
  · obtain rfl : k = s.newest := by unfold newest at hge ⊢; omega
    have hlen := length_step h hs
    refine ⟨?_, ?_, g.known h hk (Nat.le_refl _), ?_, retraces_step h he hs, fun hc => by omega, ?_⟩
    · rw [(g.record _ hk).2]
      exact hpass.number
    · unfold length at hlen
      omega
    · rw [(g.record _ hk).2]
      exact hpass.recallable
    · rw [g.program]
      exact snapshots_step h he hs

/-- A new step at the end of the log leaves the session sound, and at its end. -/
theorem Sound.stepped : (s.stepped step m streams).Sound ∧ (s.stepped step m streams).AtEnd := by
  have g := grows_step h hs
  obtain ⟨hprog, -, hcur, hmach, -, -, -, -, hres⟩ := s.stepped_fields step m streams
  have hsize := s.stepped_size step m streams
  have hnewest := s.stepped_newest step m streams
  have hlen := length_step h hs
  have hindex : m.index = s.length s.newest + 1 := by
    rw [(Machine.step_isLive hs).2, he.index]
  have hlast := machineAt_step h he hs
  refine ⟨?_, ⟨by rw [hcur, hnewest, he.cursor], by rw [hmach, hnewest, hlen, hindex]⟩⟩
  exact
    { live := by rw [hprog]; exact h.live
      interval := by rw [hprog]; exact h.interval
      regular := g.regular
      nonempty := by rw [hsize]; exact h.nonempty
      first := (g.record 0 h.nonempty).1.trans h.first
      passes := fun k hk => soundPass_step h he hs (by rw [← hsize]; exact hk)
      result := by
        have hnone : s.result = none := by
          have hlive := h.isLive_machineAt h.newest_lt (Nat.le_refl _)
          rw [← h.atEnd_machine he] at hlive
          rw [h.result]
          dsimp only
          rw [← h.atEnd_machine he, hlive.not_isFinished hs]
          rfl
        dsimp only
        rw [hnewest, hlen, hlast, hres, hnone]
      cursor := by rw [hcur, hsize]; exact h.cursor
      index := Nat.le_of_eq (by rw [hcur, hmach, he.cursor, hlen, hindex])
      machine := by rw [hcur, hmach, he.cursor, hindex, hlast] }

end

end ReactiveLang.Session
