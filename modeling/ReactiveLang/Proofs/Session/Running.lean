import ReactiveLang.Proofs.Session.Growing

/-!
# Stepping and running

* `Sound.step_below`: below the end of the log, `step` gives the logged step and goes on to the
  next place.
* `Sound.step_atEnd`: at the end of the log, `step` takes a new step, if the newest pass has one.
* `Sound.runOut`, `Sound.evaluate`, `Sound.react`: the newest pass runs to its end.
-/

namespace ReactiveLang.Session

variable {s : Session}

/-- The newest pass is the only one, or has taken a step. -/
def Begun (s : Session) : Prop := s.newest = 0 ∨ (s.record s.newest).start < s.log.size

section
variable (h : s.Sound)
include h

theorem Sound.position_atEnd (he : s.AtEnd) : s.position = s.log.size := by
  have h1 := (h.passes _ h.newest_lt).start_le
  rw [position, he.index, he.cursor, length, ← h.stop_newest]
  omega

theorem Sound.atEnd_of_position (hb : s.Begun) (hp : s.log.size ≤ s.position) : s.AtEnd := by
  have hi := h.index
  have h1 := (h.passes _ h.cursor).start_le
  have h2 := (h.start_le_size h.cursor).2
  have hstop : s.log.size ≤ s.stop s.cursor := by
    unfold position at hp
    unfold length at hi
    omega
  have hc : s.cursor = s.newest := by
    rcases Nat.lt_or_ge s.cursor s.newest with hlt | hge
    · have h3 := h.stop_le h.newest_lt hlt
      rcases hb with hb | hb <;> omega
    · have := h.cursor
      unfold newest at hge ⊢
      omega
  refine ⟨hc, ?_⟩
  unfold position at hp
  unfold length at hi ⊢
  rw [← hc]
  omega

/-- At the end of a finished pass, the cursor goes on to the next one. -/
theorem Sound.crossOver (hp : s.position < s.log.size) : ∃ place offset,
    place < s.passes.size ∧ offset < s.length place ∧
      (s.record place).start + offset = s.position ∧ s.crossOver = s.placed place offset := by
  have hstart := (h.passes _ h.cursor).start_le
  rcases Nat.lt_or_ge s.machine.index (s.length s.cursor) with hlt | hge
  · refine ⟨s.cursor, s.machine.index, h.cursor, hlt, rfl, ?_⟩
    have hf := h.not_isFinished h.cursor hlt
    rw [← h.machine] at hf
    rw [Session.crossOver, hf]
    exact h.eq_placed
  · have hi : s.machine.index = s.length s.cursor := Nat.le_antisymm h.index hge
    have hpos : s.position = s.stop s.cursor := by
      rw [position, hi, length]
      omega
    have hc : s.cursor < s.newest := by
      rcases Nat.lt_or_ge s.cursor s.newest with hlt | hge
      · exact hlt
      · have : s.cursor = s.newest := by
          have := h.cursor
          unfold newest at hge ⊢
          omega
        rw [hpos, this, h.stop_newest] at hp
        omega
    have hf := (h.passes _ h.cursor).finished hc
    rw [← hi, ← h.machine] at hf
    have hnext : s.cursor + 1 < s.passes.size := by unfold newest at hc; omega
    rw [h.stop_of_lt hc] at hpos
    refine ⟨s.cursor + 1, 0, hnext, ?_, hpos.symm, ?_⟩
    · have hlt : (s.record (s.cursor + 1)).start < s.stop (s.cursor + 1) := by
        rcases Nat.lt_or_ge (s.cursor + 1) s.newest with hlt | hge
        · rw [h.stop_of_lt hlt]
          exact h.start_lt hlt
        · rw [show s.cursor + 1 = s.newest by omega] at hpos ⊢
          rw [h.stop_newest]
          omega
      unfold length
      omega
    · rw [Session.crossOver, if_pos (by simp [hf, hc])]
      exact h.seek hnext (Nat.zero_le _)

/-- Below the end of the log, the logged step is taken again. -/
theorem Sound.step_below (hp : s.position < s.log.size) :
    s.step = (s.log[s.position]?, s.moveTo (s.position + 1)) := by
  obtain ⟨place, offset, hplace, hoff, hpos, hcross⟩ := h.crossOver hp
  obtain ⟨step, hlog, hadv⟩ := h.advance_placed hplace hoff
  have hto : s.passTo (s.position + 1) = place := by
    refine passTo_unique h hplace (fun k h1 h2 => ?_) (.inl (by omega))
    have h3 := h.stop_le h2 h1
    unfold length at hoff
    omega
  have hmove : s.moveTo (s.position + 1) = s.placed place (offset + 1) := by
    rw [h.moveTo, Nat.min_eq_left hp, hto]
    congr 1
    omega
  have hi := h.index_machineAt hplace (Nat.le_of_lt hoff)
  have hposition : (s.placed place offset).position = s.position := by
    rw [← hpos, position, show (s.placed place offset).machine.index = offset from hi]
    rfl
  have hend : ¬ (s.placed place offset).log.size ≤ (s.placed place offset).position := by
    rw [hposition]
    exact Nat.not_le_of_gt hp
  unfold Session.step
  rw [hcross]
  simp only [hend, decide_false, Bool.not_false, hadv, if_false]
  rw [hmove, ← hpos, hlog]

/-- At the end of the log, a new step is taken, if the newest pass is not finished. -/
theorem Sound.step_atEnd (he : s.AtEnd) :
    (s.machine.isFinished = true ∧ s.step = (none, s)) ∨
      ∃ step m streams, s.machine.step ⟨s.program, (s.record s.cursor).pass, s.streams, false⟩ =
        some (step, m, streams) ∧ s.step = (some step, s.stepped step m streams) := by
  have hcross : s.crossOver = s := by
    rw [Session.crossOver, if_neg]
    simp [he.cursor]
  have hend : s.log.size ≤ s.position := Nat.le_of_eq (h.position_atEnd he).symm
  have hlive := h.isLive_machineAt h.newest_lt (Nat.le_refl _)
  rw [← h.atEnd_machine he] at hlive
  unfold Session.step
  rw [hcross]
  simp only [hend, decide_true, Bool.not_true]
  cases hs : s.machine.step ⟨s.program, (s.record s.cursor).pass, s.streams, false⟩ with
  | none =>
    refine .inl ⟨hlive.next?_eq_none_iff.1 (Machine.step_eq_none_iff.1 hs), ?_⟩
    simp only [advance, hs]
  | some r =>
    obtain ⟨step, m, streams⟩ := r
    refine .inr ⟨step, m, streams, rfl, ?_⟩
    simp only [advance, hs]
    rfl

end

/-! ## Running a pass to its end -/

/-- A machine with more steps than a pass may take is finished. -/
theorem Sound.finished_of_limit (h : s.Sound) {place offset : Nat} (hp : place < s.passes.size)
    (ho : offset ≤ s.length place) (hl : s.program.config.maxSteps < offset) :
    (s.machineAt place offset).isFinished = true := by
  cases offset with
  | zero => omega
  | succ offset =>
    obtain ⟨step, -, hs⟩ := (h.passes place hp).retraces offset ho
    refine Machine.step_limit hs ?_
    rw [show ((Machine.start s.program).after (s.world place) offset).index = offset from
      h.index_machineAt hp (Nat.le_of_lt ho)]
    exact Nat.le_of_lt_succ hl

/-- What running the newest pass to its end comes to. -/
structure RunOut (s s' : Session) : Prop where
  sound : s'.Sound
  atEnd : s'.AtEnd
  finished : s'.machine.isFinished = true
  program : s'.program = s.program
  size : s'.passes.size = s.passes.size
  log : s.log.size ≤ s'.log.size
  start : (s'.record s'.newest).start = (s.record s.newest).start

/-- With enough fuel, the newest pass runs to its end. -/
theorem Sound.runOut (h : s.Sound) (he : s.AtEnd) {fuel : Nat}
    (hf : s.program.config.maxSteps + 2 ≤ fuel + s.machine.index) :
    RunOut s (Session.runOut fuel s) := by
  induction fuel generalizing s with
  | zero =>
    have hm := h.atEnd_machine he
    have hl := h.finished_of_limit h.newest_lt (Nat.le_refl (s.length s.newest))
      (by rw [← he.index]; omega)
    rw [← hm] at hl
    exact ⟨h, he, hl, rfl, rfl, Nat.le_refl _, rfl⟩
  | succ fuel ih =>
    unfold Session.runOut
    obtain ⟨hfin, hstep⟩ | ⟨step, m, streams, hs, hstep⟩ := h.step_atEnd he
    · rw [hstep]
      exact ⟨h, he, hfin, rfl, rfl, Nat.le_refl _, rfl⟩
    · rw [hstep]
      obtain ⟨h', he'⟩ := h.stepped he hs
      have hfields := s.stepped_fields step m streams
      have hi : (s.stepped step m streams).machine.index = s.machine.index + 1 := by
        rw [hfields.2.2.2.1, (Machine.step_isLive hs).2]
      have hr := ih h' he' (by rw [hfields.1, hi]; omega)
      dsimp only
      refine ⟨hr.sound, hr.atEnd, hr.finished, hr.program.trans hfields.1,
        hr.size.trans (s.stepped_size step m streams), ?_, ?_⟩
      · have := hr.log
        rw [hfields.2.2.2.2.1, Array.size_push] at this
        omega
      · rw [hr.start, s.stepped_newest, s.stepped_record step m streams h.newest_lt]

/-- The session with its cursor at the end of the log. -/
def atEnd (s : Session) : Session := s.placed s.newest (s.length s.newest)

theorem Sound.atEnd (h : s.Sound) : s.atEnd.Sound ∧ s.atEnd.AtEnd :=
  ⟨h.placed h.newest_lt (Nat.le_refl _), rfl, h.index_machineAt h.newest_lt (Nat.le_refl _)⟩

/-- A session whose cursor is at the end is as it is. -/
theorem Sound.atEnd_eq (h : s.Sound) (he : s.AtEnd) : s.atEnd = s := by
  unfold Session.atEnd
  rw [← he.index, ← he.cursor]
  exact h.eq_placed.symm

theorem Sound.passTo_size (h : s.Sound) (hb : s.Begun) : s.passTo s.log.size = s.newest := by
  refine passTo_unique h h.newest_lt (fun k h1 h2 => ?_) hb.symm
  unfold newest at h1
  omega

/-- `evaluate` begins at the end of the log, wherever the cursor was. -/
theorem Sound.evaluate_start (h : s.Sound) (hb : s.Begun ∨ s.AtEnd) :
    (if s.position < s.log.size then s.moveTo s.log.size else s) = s.atEnd := by
  split
  · rename_i hlt
    have hb : s.Begun := by
      rcases hb with hb | hb
      · exact hb
      · rw [h.position_atEnd hb] at hlt
        omega
    rw [h.moveTo, Nat.min_self, h.passTo_size hb, Session.atEnd, length, h.stop_newest]
  · rename_i hge
    have he : s.AtEnd := by
      rcases hb with hb | hb
      · exact h.atEnd_of_position hb (Nat.le_of_not_lt hge)
      · exact hb
    exact (h.atEnd_eq he).symm

theorem Sound.evaluate_eq (h : s.Sound) (hb : s.Begun ∨ s.AtEnd) :
    s.evaluate.2 = Session.runOut (s.program.config.maxSteps + 2) s.atEnd ∧
      s.evaluate.1 = (Session.runOut (s.program.config.maxSteps + 2) s.atEnd).result.getD
        .nothing := by
  unfold evaluate
  rw [h.evaluate_start hb]
  exact ⟨rfl, rfl⟩

theorem Sound.evaluate (h : s.Sound) (hb : s.Begun ∨ s.AtEnd) : RunOut s s.evaluate.2 := by
  obtain ⟨h', he'⟩ := h.atEnd
  rw [(h.evaluate_eq hb).1]
  have hr := h'.runOut he' (show _ ≤ s.program.config.maxSteps + 2 + _ from Nat.le_add_right _ _)
  exact ⟨hr.sound, hr.atEnd, hr.finished, hr.program, hr.size, hr.log, hr.start⟩

/-! ## Reacting -/

/-- The next pass is begun on values that the session knows. -/
theorem Sound.nextPass (h : s.Sound) (he : s.AtEnd) :
    s.nextPass.number = s.passes.size ∧ s.nextPass.Holds (Handle.Known s.streams.size) ∧
      Recallable s.nextPass.memo := by
  have hpass := h.passes _ h.newest_lt
  have hk := hpass.retraces.known h.regular (start_known _ _) hpass.known (Nat.le_refl _)
  have hr := hpass.retraces.recallable nofun hpass.recallable (Nat.le_refl _)
  constructor
  · have hpos := h.nonempty
    rw [show s.nextPass.number = (s.record s.newest).pass.number + 1 from rfl, hpass.number]
    unfold newest
    omega
  · rw [show (Machine.start s.program).after (s.world s.newest) (s.length s.newest) = s.machine
      from (h.atEnd_machine he).symm] at hk hr
    exact ⟨⟨hk.memo, hk.reactions⟩, hr⟩

/-- The cursor goes on to a pass that begins. -/
theorem atEnd_beginPass (s : Session) (pass : Pass) : (s.beginPass pass).AtEnd := by
  refine ⟨?_, ?_⟩
  · rw [s.beginPass_newest]
    rfl
  · rw [s.beginPass_newest, s.beginPass_length]
    rfl

theorem Sound.begin (h : s.Sound) (he : s.AtEnd) (hf : s.machine.isFinished = true) :
    (s.beginPass s.nextPass).Sound ∧ (s.beginPass s.nextPass).AtEnd := by
  obtain ⟨hn, hp, hm⟩ := h.nextPass he
  rw [h.atEnd_machine he] at hf
  exact ⟨h.beginPass hn hp hm hf, s.atEnd_beginPass _⟩

/-- After a run to its end, the newest pass has taken a step. -/
theorem RunOut.begun {s' : Session} (h : RunOut s s') : s'.Begun := by
  have hpos : 0 < s'.length s'.newest := by
    rcases Nat.eq_zero_or_pos (s'.length s'.newest) with h0 | hpos
    · have hm := h.sound.atEnd_machine h.atEnd
      have hf := h.finished
      rw [hm, h0] at hf
      cases hf
    · exact hpos
  refine .inr ?_
  rw [length, h.sound.stop_newest] at hpos
  omega

/-- What is told of a session changes nothing in it. -/
theorem Sound.told (h : s.Sound) (history : Array Reaction) (notices : Option (List Notice)) :
    ({ s with history, notices } : Session).Sound :=
  { live := h.live, interval := h.interval, regular := h.regular, nonempty := h.nonempty
    first := h.first
    passes := fun k hk =>
      ⟨(h.passes k hk).number, (h.passes k hk).start_le, (h.passes k hk).known,
        (h.passes k hk).recallable, (h.passes k hk).retraces, (h.passes k hk).finished,
        (h.passes k hk).snapshots⟩
    result := h.result
    cursor := h.cursor
    index := h.index
    machine := h.machine }

theorem announce_program (s : Session) (r : Reaction) : (s.announce r).program = s.program := rfl

theorem announce_machine (s : Session) (r : Reaction) : (s.announce r).machine = s.machine := rfl

theorem Begun.announce (h : s.Begun) (r : Reaction) : (s.announce r).Begun := h

/-- The session with the next pass begun, once the newest one is finished. -/
def followed (s : Session) : Session := s.evaluate.2.beginPass s.evaluate.2.nextPass

/-- The newest pass as a reaction with that result. -/
def reaction (s : Session) (result : Value) : Reaction :=
  let r := s.record s.newest
  ⟨r.pass.number, r.pass.changed, result, r.start, s.log.size - r.start⟩

theorem react_eq (s : Session) : s.react = (s.followed.evaluate.1,
    s.followed.evaluate.2.announce (s.followed.evaluate.2.reaction s.followed.evaluate.1)) := by
  unfold Session.react followed
  generalize s.evaluate = first
  obtain ⟨v, s1⟩ := first
  dsimp only
  generalize (s1.beginPass s1.nextPass).evaluate = second
  obtain ⟨result, s2⟩ := second
  rfl

theorem Sound.followed (h : s.Sound) (hb : s.Begun) : s.followed.Sound ∧ s.followed.AtEnd :=
  have h1 := h.evaluate (.inl hb)
  h1.sound.begin h1.atEnd h1.finished

/-- A reaction finishes the newest pass and runs the next one to its end. -/
theorem Sound.react (h : s.Sound) (hb : s.Begun) :
    s.react.2.Sound ∧ s.react.2.Begun ∧ s.react.2.program = s.program := by
  obtain ⟨h2, he2⟩ := h.followed hb
  have h3 := h2.evaluate (.inr he2)
  rw [react_eq, announce_program, h3.program]
  exact ⟨h3.sound.told _ _, h3.begun.announce _, (h.evaluate (.inl hb)).program⟩

end ReactiveLang.Session
