import ReactiveLang.Proofs.Session.Course

/-!
# How often a machine is kept

Sessions of one program that keep machines at different intervals are the same to the host:
`SameRun` is kept by every command, and the answers are equal.
-/

namespace ReactiveLang

/-- The same program, keeping a machine every so many steps. -/
def Program.withInterval (p : Program) (interval : Nat) : Program :=
  { p with config := { p.config with snapshotInterval := interval } }

/-- The same step of a program that keeps machines at another interval. -/
def World.withInterval (w : World) (interval : Nat) : World :=
  { w with program := w.program.withInterval interval }

namespace Machine

variable (m : Machine) (w : World) (interval : Nat)

/-- How often machines are kept means nothing to a step. -/
theorem step_withInterval : m.step (w.withInterval interval) = m.step w := by
  have hconclude : ∀ r, conclude (w.withInterval interval) m.advanced r =
      conclude w m.advanced r :=
    conclude_withConfig m.advanced w { w.program.config with snapshotInterval := interval }
  have heffect : ∀ s, effect (w.withInterval interval) m s = effect w m s := fun _ => rfl
  rw [step_eq, step_eq]
  simp only [hconclude, heffect]

theorem after_withInterval (n : Nat) : m.after (w.withInterval interval) n = m.after w n := by
  induction n with
  | zero => rfl
  | succ n ih => rw [after, after, ih, step_withInterval]

end Machine

namespace Session

/-- Two sessions whose passes are at the same places of logs of one size, and whose cursors are at
the same place. -/
structure SamePlaces (s s' : Session) : Prop where
  size : s'.passes.size = s.passes.size
  start : ∀ k, (s'.record k).start = (s.record k).start
  log : s'.log.size = s.log.size
  cursor : s'.cursor = s.cursor
  index : s'.machine.index = s.machine.index

namespace SamePlaces

variable {s s' : Session} (r : SamePlaces s s')
include r

theorem newest : s'.newest = s.newest := by
  unfold Session.newest
  rw [r.size]

theorem length (k : Nat) : s'.length k = s.length k := by
  unfold Session.length Session.stop
  rw [r.size, r.log, r.start, r.start]

theorem passTo (target : Nat) : s'.passTo target = s.passTo target := by
  unfold Session.passTo
  rw [r.size]
  induction s.passes.size with
  | zero => rfl
  | succ n ih => rw [passBefore, passBefore, r.start n, ih]

theorem position : s'.position = s.position := by
  unfold Session.position
  rw [r.cursor, r.index, r.start]

theorem begun (hb : s.Begun) : s'.Begun := by
  unfold Begun at hb ⊢
  rw [r.newest, r.start, r.log]
  exact hb

theorem isAtEnd (he : s.AtEnd) : s'.AtEnd :=
  ⟨by rw [r.cursor, r.newest, he.cursor], by rw [r.index, r.newest, r.length, he.index]⟩

end SamePlaces

/-- Two sessions that differ in nothing but the machines that they have kept. -/
structure SameRun (s s' : Session) : Prop where
  program : ∃ interval, s'.program = s.program.withInterval interval
  streams : s'.streams = s.streams
  size : s'.passes.size = s.passes.size
  record : ∀ k, (s'.record k).start = (s.record k).start ∧ (s'.record k).pass = (s.record k).pass
  cursor : s'.cursor = s.cursor
  machine : s'.machine = s.machine
  log : s'.log = s.log
  result : s'.result = s.result
  history : s'.history = s.history
  pending : s'.pending = s.pending
  notices : s'.notices = s.notices

namespace SameRun

variable {s s' : Session} (r : SameRun s s')
include r

theorem places : SamePlaces s s' :=
  ⟨r.size, fun k => (r.record k).1, congrArg _ r.log, r.cursor, congrArg _ r.machine⟩

theorem world (k : Nat) : ∃ interval, s'.world k = (s.world k).withInterval interval := by
  obtain ⟨interval, hp⟩ := r.program
  refine ⟨interval, ?_⟩
  unfold Session.world World.withInterval
  rw [hp, r.streams, (r.record _).2]

theorem machineAt (place offset : Nat) : s'.machineAt place offset = s.machineAt place offset := by
  obtain ⟨interval, hw⟩ := r.world place
  obtain ⟨_, hp⟩ := r.program
  unfold Session.machineAt
  rw [hw, hp]
  exact Machine.after_withInterval _ _ _ _

theorem placed (place offset : Nat) : SameRun (s.placed place offset) (s'.placed place offset) :=
  ⟨r.program, r.streams, r.size, r.record, rfl, r.machineAt place offset, r.log, r.result,
    r.history, r.pending, r.notices⟩

theorem moveTo (h : s.Sound) (h' : s'.Sound) (index : Nat) :
    SameRun (s.moveTo index) (s'.moveTo index) := by
  rw [h.moveTo, h'.moveTo, r.log, r.places.passTo, (r.record _).1]
  exact r.placed _ _

theorem atEnd : SameRun s.atEnd s'.atEnd := by
  unfold Session.atEnd
  rw [r.places.newest, r.places.length]
  exact r.placed _ _

theorem withNotices (notices : Option (List Notice)) :
    SameRun { s with notices } { s' with notices } :=
  ⟨r.program, r.streams, r.size, r.record, r.cursor, r.machine, r.log, r.result, r.history,
    r.pending, rfl⟩

theorem tick (now : Float) : (s'.tick now).1 = (s.tick now).1 ∧
    SameRun (s.tick now).2 (s'.tick now).2 := by
  have hn : s'.passNumber = s.passNumber := by
    unfold Session.passNumber
    rw [r.places.newest, (r.record _).2]
  unfold Session.tick
  rw [r.streams, hn, r.pending]
  exact ⟨rfl, r.program, rfl, r.size, r.record, r.cursor, r.machine, r.log, r.result, r.history,
    rfl, r.notices⟩

theorem stepped (step : Step) (m : Machine) (streams : Streams) :
    SameRun (s.stepped step m streams) (s'.stepped step m streams) := by
  obtain ⟨p1, s1, c1, m1, l1, h1, e1, n1, r1⟩ := s.stepped_fields step m streams
  obtain ⟨p2, s2, c2, m2, l2, h2, e2, n2, r2⟩ := s'.stepped_fields step m streams
  refine ⟨by rw [p1, p2]; exact r.program, by rw [s1, s2], ?_, fun k => ?_, by rw [c1, c2, r.cursor],
    by rw [m1, m2], by rw [l1, l2, r.log], by rw [r1, r2, r.result], by rw [h1, h2, r.history],
    by rw [e1, e2, r.pending], by rw [n1, n2, r.notices]⟩
  · rw [s.stepped_size, s'.stepped_size, r.size]
  · have hs := s.stepped_record_fields step m streams k
    have hs' := s'.stepped_record_fields step m streams k
    rw [hs.1, hs.2, hs'.1, hs'.2]
    exact r.record k

theorem beginPass (pass : Pass) : SameRun (s.beginPass pass) (s'.beginPass pass) := by
  obtain ⟨_, hp⟩ := r.program
  have hm : Machine.start s'.program = Machine.start s.program := by rw [hp]; rfl
  refine ⟨r.program, r.streams, by rw [s.beginPass_size, s'.beginPass_size, r.size], fun k => ?_,
    r.size, hm, r.log, rfl, r.history, rfl, r.notices⟩
  have hk := r.record k
  unfold Session.record at hk ⊢
  simp only [Session.beginPass, Array.getElem?_push, r.size, r.log]
  split
  · exact ⟨rfl, rfl⟩
  · exact hk

/-- At the end of the log, both sessions take the same step. -/
theorem step_atEnd (h : s.Sound) (h' : s'.Sound) (he : s.AtEnd) :
    s'.step.1 = s.step.1 ∧ SameRun s.step.2 s'.step.2 := by
  have hstep : s'.machine.step ⟨s'.program, (s'.record s'.cursor).pass, s'.streams, false⟩ =
      s.machine.step ⟨s.program, (s.record s.cursor).pass, s.streams, false⟩ := by
    obtain ⟨interval, hp⟩ := r.program
    rw [r.machine, hp, r.cursor, (r.record _).2, r.streams]
    exact s.machine.step_withInterval ⟨_, _, _, _⟩ interval
  obtain ⟨hf, hs⟩ | ⟨step, m, streams, hm, hs⟩ := h.step_atEnd he <;>
    obtain ⟨hf', hs'⟩ | ⟨step', m', streams', hm', hs'⟩ := h'.step_atEnd (r.places.isAtEnd he)
  · rw [hs, hs']
    exact ⟨rfl, r⟩
  · have hlive := h'.isLive_machineAt h'.newest_lt (Nat.le_refl _)
    rw [← h'.atEnd_machine (r.places.isAtEnd he)] at hlive
    rw [← r.machine, hlive.not_isFinished hm'] at hf
    cases hf
  · have hlive := h.isLive_machineAt h.newest_lt (Nat.le_refl _)
    rw [← h.atEnd_machine he] at hlive
    rw [r.machine, hlive.not_isFinished hm] at hf'
    cases hf'
  · rw [hstep, hm] at hm'
    cases hm'
    rw [hs, hs']
    exact ⟨rfl, r.stepped step m streams⟩

theorem runOut (h : s.Sound) (h' : s'.Sound) (he : s.AtEnd) (fuel : Nat) :
    SameRun (Session.runOut fuel s) (Session.runOut fuel s') := by
  induction fuel generalizing s s' with
  | zero => exact r
  | succ fuel ih =>
    obtain ⟨hsame, rstep⟩ := r.step_atEnd h h' he
    unfold Session.runOut
    obtain ⟨hf, hs⟩ | ⟨step, m, streams, hm, hs⟩ := h.step_atEnd he <;>
      obtain ⟨hf', hs'⟩ | ⟨step', m', streams', hm', hs'⟩ := h'.step_atEnd (r.places.isAtEnd he) <;>
      rw [hs, hs'] at hsame rstep ⊢
    · exact r
    · cases hsame
    · cases hsame
    · exact ih rstep (h.stepped he hm).1 (h'.stepped (r.places.isAtEnd he) hm').1 (h.stepped he hm).2

theorem evaluate (h : s.Sound) (h' : s'.Sound) (hb : s.Begun ∨ s.AtEnd) :
    s'.evaluate.1 = s.evaluate.1 ∧ SameRun s.evaluate.2 s'.evaluate.2 := by
  have hb' : s'.Begun ∨ s'.AtEnd := by
    rcases hb with hb | hb
    · exact .inl (r.places.begun hb)
    · exact .inr (r.places.isAtEnd hb)
  obtain ⟨_, hp⟩ := r.program
  have hsteps : s'.program.config.maxSteps = s.program.config.maxSteps := by rw [hp]; rfl
  have hrun := r.atEnd.runOut h.atEnd.1 h'.atEnd.1 h.atEnd.2 (s.program.config.maxSteps + 2)
  rw [(h.evaluate_eq hb).1, (h.evaluate_eq hb).2, (h'.evaluate_eq hb').1, (h'.evaluate_eq hb').2,
    hsteps]
  exact ⟨by rw [hrun.result], hrun⟩

theorem nextPass : s'.nextPass = s.nextPass := by
  unfold Session.nextPass Session.passNumber
  rw [r.places.newest, (r.record _).2, r.pending, r.streams, r.machine]

theorem followed (h : s.Host) (h' : s'.Host) : SameRun s.followed s'.followed := by
  have hr := (r.evaluate h.sound h'.sound (.inl h.begun)).2
  unfold Session.followed
  rw [hr.nextPass]
  exact hr.beginPass _

theorem announce (reaction : Reaction) : SameRun (s.announce reaction) (s'.announce reaction) := by
  unfold Session.announce
  rw [r.history, r.notices]
  exact ⟨r.program, r.streams, r.size, r.record, r.cursor, r.machine, r.log, r.result, rfl,
    r.pending, rfl⟩

theorem reaction (result : Value) : s'.reaction result = s.reaction result := by
  unfold Session.reaction
  dsimp only
  rw [r.places.newest, (r.record _).1, (r.record _).2, r.log]

theorem react (h : s.Host) (h' : s'.Host) :
    s'.react.1 = s.react.1 ∧ SameRun s.react.2 s'.react.2 := by
  obtain ⟨hs, he⟩ := h.sound.followed h.begun
  obtain ⟨hs', -⟩ := h'.sound.followed h'.begun
  obtain ⟨hv, hr⟩ := (r.followed h h').evaluate hs hs' (.inr he)
  rw [react_eq, react_eq, hv, hr.reaction]
  exact ⟨rfl, hr.announce _⟩

theorem renewed : SameRun s.renewed s'.renewed := by
  obtain ⟨interval, hp⟩ := r.program
  unfold Session.renewed
  rw [hp, r.notices]
  exact ⟨⟨interval, rfl⟩, rfl, rfl, fun k => by cases k <;> exact ⟨rfl, rfl⟩, rfl, rfl, rfl, rfl, rfl,
    rfl, rfl⟩

theorem step (h : s.Host) (h' : s'.Host) :
    s'.step.1 = s.step.1 ∧ SameRun s.step.2 s'.step.2 := by
  rcases Nat.lt_or_ge s.position s.log.size with hlt | hge
  · have hlt' : s'.position < s'.log.size := by rw [r.places.position, r.log]; exact hlt
    rw [h.sound.step_below hlt, h'.sound.step_below hlt', r.places.position, r.log]
    exact ⟨rfl, r.moveTo h.sound h'.sound _⟩
  · exact r.step_atEnd h.sound h'.sound (h.sound.atEnd_of_position h.begun hge)

/-- A command has the same answer and the same effect. -/
theorem respond (h : s.Host) (h' : s'.Host) (command : Command) :
    (s'.respond command).1 = (s.respond command).1 ∧
      SameRun (s.respond command).2 (s'.respond command).2 := by
  cases command with
  | step => exact ⟨congrArg Answer.step (r.step h h').1, (r.step h h').2⟩
  | moveTo index => exact ⟨rfl, r.moveTo h.sound h'.sound index⟩
  | moveBack count =>
    refine ⟨rfl, ?_⟩
    simp only [Session.respond, Session.moveBack, r.places.position]
    exact r.moveTo h.sound h'.sound _
  | evaluate =>
    obtain ⟨hv, hr⟩ := r.evaluate h.sound h'.sound (.inl h.begun)
    exact ⟨congrArg Answer.value hv, hr⟩
  | tick now => exact ⟨congrArg Answer.changed (r.tick now).1, (r.tick now).2⟩
  | react => exact ⟨congrArg Answer.value (r.react h h').1, (r.react h h').2⟩
  | restart =>
    obtain ⟨hv, hr⟩ := r.renewed.evaluate h.renewed.sound h'.renewed.sound (.inl h.renewed.begun)
    exact ⟨congrArg Answer.value hv, hr⟩
  | subscribe => exact ⟨rfl, r.withNotices _⟩
  | unsubscribe => exact ⟨rfl, r.withNotices _⟩
  | drain =>
    refine ⟨?_, ?_⟩
    · simp only [Session.respond, Session.drain, r.notices]
    · simp only [Session.respond, Session.drain, r.notices]
      exact r.withNotices _

theorem after (h : s.Host) (h' : s'.Host) (commands : List Command) :
    SameRun (s.after commands) (s'.after commands) := by
  induction commands generalizing s s' with
  | nil => exact r
  | cons command rest ih =>
    exact ih (r.respond h h' command).2 (h.respond command) (h'.respond command)

end SameRun
end Session
end ReactiveLang
