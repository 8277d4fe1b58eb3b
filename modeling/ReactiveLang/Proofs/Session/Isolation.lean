import ReactiveLang.Proofs.Eval.Beside
import ReactiveLang.Proofs.Session.Navigation

/-!
# Passes and later input

A pass reads what its streams had when it began. Ticks while it runs, or after it, are for the
passes to come.

* `Grows.after`: whatever a host does but restart, a session grows.
* `SamePasses`: two sessions that differ only in what passes to come will read. Commands that begin
  no pass keep it, and a tick on one side does too.
* `SamePasses.evaluate_after`: where a pass ends does not depend on what was done on the way.
* `passes_isolated`: a run with ticks, the run without them, and what later sessions show of it.
-/

namespace ReactiveLang

namespace Command

/-- The command asks the streams for values. -/
def isTick : Command → Bool
  | .tick _ => true
  | _ => false

/-- The command begins a pass. -/
def beginsPass : Command → Bool
  | .react | .restart => true
  | _ => false

/-- What a command that begins no pass makes of the notices that were not fetched yet. -/
def noticesAfter (notices : Option (List Notice)) : Command → Option (List Notice)
  | .subscribe => some []
  | .unsubscribe => none
  | .drain => notices.map fun _ => []
  | _ => notices

end Command

/-- The commands that are no ticks. -/
def withoutTicks (commands : List Command) : List Command := commands.filter fun c => !c.isTick

namespace Session

/-- The answers to the commands that are no ticks. -/
def answersBesideTicks (s : Session) : List Command → List Answer
  | [] => []
  | c :: rest =>
    if c.isTick then answersBesideTicks (s.respond c).2 rest
    else (s.respond c).1 :: answersBesideTicks (s.respond c).2 rest

variable {s s' s'' : Session}

/-! ## Growing -/

theorem Grows.size_le (g : Grows s s') : s.log.size ≤ s'.log.size := by
  rcases Nat.lt_or_ge s'.log.size s.log.size with hlt | hle
  · have hl := g.log _ hlt
    simp [Array.getElem?_eq_getElem hlt] at hl
  · exact hle

theorem Grows.newest_le (g : Grows s s') : s.newest ≤ s'.newest :=
  Nat.sub_le_sub_right g.passes 1

theorem Grows.trans (g : Grows s s') (g' : Grows s' s'') : Grows s s'' where
  program := g'.program.trans g.program
  streams := fun pass hp => (g.streams pass hp).trans (g'.streams pass (Nat.le_trans hp g.newest_le))
  regular := g'.regular
  passes := Nat.le_trans g.passes g'.passes
  record := fun k hk => by
    obtain ⟨h1, h2⟩ := g.record k hk
    obtain ⟨h3, h4⟩ := g'.record k (Nat.lt_of_lt_of_le hk g.passes)
    exact ⟨h3.trans h1, h4.trans h2⟩
  later := fun k hk hge => by
    rcases Nat.lt_or_ge k s'.passes.size with hlt | hge'
    · rw [(g'.record k hlt).1]
      exact g.later k hlt hge
    · exact Nat.le_trans g.size_le (g'.later k hk hge')
  log := fun i hi => (g'.log i (Nat.lt_of_lt_of_le hi g.size_le)).trans (g.log i hi)

theorem Sound.grows_refl (h : s.Sound) : Grows s s := h.grows_same rfl rfl rfl rfl

theorem Sound.grows_runOut (h : s.Sound) (he : s.AtEnd) (fuel : Nat) : Grows s (Session.runOut fuel s) := by
  induction fuel generalizing s with
  | zero => exact h.grows_refl
  | succ fuel ih =>
    unfold Session.runOut
    obtain ⟨-, hs⟩ | ⟨step, m, streams, hm, hs⟩ := h.step_atEnd he
    · rw [hs]
      exact h.grows_refl
    · rw [hs]
      obtain ⟨h', he'⟩ := h.stepped he hm
      exact (grows_step h hm).trans (ih h' he')

theorem Sound.grows_evaluate (h : s.Sound) (hb : s.Begun ∨ s.AtEnd) : Grows s s.evaluate.2 := by
  rw [(h.evaluate_eq hb).1]
  have hend : Grows s s.atEnd := h.grows_same rfl rfl rfl rfl
  exact hend.trans (h.atEnd.1.grows_runOut h.atEnd.2 _)

theorem Host.grows_followed (h : s.Host) : Grows s.evaluate.2 s.followed :=
  (h.sound.evaluate (.inl h.begun)).sound.grows_beginPass _

theorem Sound.grows_announce (h : s.Sound) (r : Reaction) : Grows s (s.announce r) :=
  h.grows_same rfl rfl rfl rfl

theorem Host.followed_grows (h : s.Host) : Grows s.followed s.react.2 := by
  obtain ⟨hf, he⟩ := h.sound.followed h.begun
  have hr := hf.evaluate (.inr he)
  rw [react_eq]
  exact (hf.grows_evaluate (.inr he)).trans (hr.sound.grows_announce _)

/-- Whatever a host does but restart, a session grows. -/
theorem Host.grows_respond (h : s.Host) {command : Command} (hc : command ≠ .restart) :
    Grows s (s.respond command).2 := by
  have hmove : ∀ index, Grows s (s.moveTo index) := by
    intro index
    rw [h.sound.moveTo]
    exact h.sound.grows_same rfl rfl rfl rfl
  cases command with
  | step =>
    show Grows s s.step.2
    obtain ⟨-, hs⟩ | ⟨-, -, hs⟩ | ⟨-, step, m, streams, hm, hs⟩ := h.step_cases
    · rw [hs]
      exact hmove _
    · rw [hs]
      exact h.sound.grows_refl
    · rw [hs]
      exact grows_step h.sound hm
  | moveTo index => exact hmove index
  | moveBack count => exact hmove _
  | evaluate => exact h.sound.grows_evaluate (.inl h.begun)
  | tick now => exact h.sound.grows_tick now
  | react =>
    exact ((h.sound.grows_evaluate (.inl h.begun)).trans h.grows_followed).trans h.followed_grows
  | restart => exact absurd rfl hc
  | subscribe => exact h.sound.grows_same rfl rfl rfl rfl
  | unsubscribe => exact h.sound.grows_same rfl rfl rfl rfl
  | drain => exact h.sound.grows_same rfl rfl rfl rfl

theorem Grows.after (h : s.Host) {commands : List Command} (hc : ∀ c ∈ commands, c ≠ .restart) :
    Grows s (s.after commands) := by
  induction commands generalizing s with
  | nil => exact h.sound.grows_refl
  | cons command rest ih =>
    obtain ⟨hhead, hrest⟩ := List.forall_mem_cons.1 hc
    exact (h.grows_respond hhead).trans (ih (h.respond command) hrest)

/-! ## Steps at the end of the log -/

section
variable (h : s.Sound) (he : s.AtEnd)
include h he

theorem Sound.step_of_none
    (hs : s.machine.step ⟨s.program, (s.record s.cursor).pass, s.streams, false⟩ = none) :
    s.step = (none, s) := by
  obtain ⟨-, hstep⟩ | ⟨step, m, streams, hm, -⟩ := h.step_atEnd he
  · exact hstep
  · rw [hm] at hs
    cases hs

theorem Sound.step_of_some {step : Step} {m : Machine} {streams : Streams}
    (hs : s.machine.step ⟨s.program, (s.record s.cursor).pass, s.streams, false⟩ =
      some (step, m, streams)) : s.step = (some step, s.stepped step m streams) := by
  obtain ⟨hf, -⟩ | ⟨step', m', streams', hm, hstep⟩ := h.step_atEnd he
  · have hlive := h.isLive_machineAt h.newest_lt (Nat.le_refl _)
    rw [← h.atEnd_machine he] at hlive
    rw [hlive.not_isFinished hs] at hf
    cases hf
  · rw [hm] at hs
    cases hs
    exact hstep

theorem Sound.step_of_finished (hf : s.machine.isFinished = true) : s.step = (none, s) := by
  have hlive := h.isLive_machineAt h.newest_lt (Nat.le_refl _)
  rw [← h.atEnd_machine he] at hlive
  exact h.step_of_none he (Machine.step_eq_none_iff.2 (hlive.next?_eq_none_iff.2 hf))

theorem Sound.runOut_of_finished (hf : s.machine.isFinished = true) (fuel : Nat) :
    Session.runOut fuel s = s := by
  cases fuel with
  | zero => rfl
  | succ fuel => rw [Session.runOut, h.step_of_finished he hf]

/-- More fuel than enough changes nothing. -/
theorem Sound.runOut_succ {fuel : Nat} (hf : (Session.runOut fuel s).machine.isFinished = true) :
    Session.runOut (fuel + 1) s = Session.runOut fuel s := by
  induction fuel generalizing s with
  | zero => exact h.runOut_of_finished he hf 1
  | succ fuel ih =>
    obtain ⟨-, hs⟩ | ⟨step, m, streams, hm, hs⟩ := h.step_atEnd he
    · simp only [Session.runOut, hs]
    · obtain ⟨h', he'⟩ := h.stepped he hm
      rw [Session.runOut, hs] at hf
      have hrest := ih h' he' hf
      rw [Session.runOut, hs]
      dsimp only
      rw [hrest, Session.runOut, hs]

end

theorem Sound.evaluate_notices (h : s.Sound) (hb : s.Begun ∨ s.AtEnd) :
    s.evaluate.2.notices = s.notices := by
  have hrun : ∀ fuel {s : Session}, s.Sound → s.AtEnd →
      (Session.runOut fuel s).notices = s.notices := by
    intro fuel
    induction fuel with
    | zero => exact fun _ _ => rfl
    | succ fuel ih =>
      intro s h he
      unfold Session.runOut
      obtain ⟨-, hs⟩ | ⟨step, m, streams, hm, hs⟩ := h.step_atEnd he
      · rw [hs]
      · rw [hs]
        obtain ⟨h', he'⟩ := h.stepped he hm
        exact (ih h' he').trans (s.stepped_fields step m streams).2.2.2.2.2.2.2.1
  rw [(h.evaluate_eq hb).1]
  exact hrun _ h.atEnd.1 h.atEnd.2

/-- Only the subscriber and finished reactions change what was not fetched yet. -/
theorem Host.respond_notices (h : s.Host) {command : Command} (hc : command.beginsPass = false) :
    (s.respond command).2.notices = command.noticesAfter s.notices := by
  have hmove : ∀ index, (s.moveTo index).notices = s.notices := by
    intro index
    rw [h.sound.moveTo]
    rfl
  cases command with
  | step =>
    show s.step.2.notices = s.notices
    obtain ⟨-, hs⟩ | ⟨-, -, hs⟩ | ⟨-, step, m, streams, -, hs⟩ := h.step_cases
    · rw [hs]
      exact hmove _
    · rw [hs]
    · rw [hs]
      exact (s.stepped_fields step m streams).2.2.2.2.2.2.2.1
  | moveTo index => exact hmove index
  | moveBack count => exact hmove _
  | evaluate => exact h.sound.evaluate_notices (.inl h.begun)
  | react => cases hc
  | restart => cases hc
  | _ => rfl

/-! ## Sessions with the same passes -/

/-- Two sessions that differ only in what passes to come will read, and in what the host was
told. -/
structure SamePasses (s s' : Session) : Prop where
  program : s'.program = s.program
  streams : s.streams.Alike s'.streams s.newest
  passes : s'.passes = s.passes
  cursor : s'.cursor = s.cursor
  machine : s'.machine = s.machine
  log : s'.log = s.log
  result : s'.result = s.result

namespace SamePasses

theorem refl (s : Session) : SamePasses s s := ⟨rfl, .refl _ _, rfl, rfl, rfl, rfl, rfl⟩

theorem record (r : SamePasses s s') (k : Nat) : s'.record k = s.record k := by
  unfold Session.record
  rw [r.passes]

theorem places (r : SamePasses s s') : SamePlaces s s' :=
  ⟨congrArg _ r.passes, fun k => congrArg _ (r.record k), congrArg _ r.log, r.cursor,
    congrArg _ r.machine⟩

theorem trans (r : SamePasses s s') (r' : SamePasses s' s'') : SamePasses s s'' :=
  ⟨r'.program.trans r.program, r.streams.trans (r.places.newest ▸ r'.streams), r'.passes.trans r.passes,
    r'.cursor.trans r.cursor, r'.machine.trans r.machine, r'.log.trans r.log,
    r'.result.trans r.result⟩

variable (r : SamePasses s s')
include r

theorem grows (h' : s'.Sound) : Session.Grows s s' where
  program := r.program
  streams := fun _ hp => r.streams.there.mono hp
  regular := h'.regular
  passes := Nat.le_of_eq (by rw [r.passes])
  record := fun k _ => by
    rw [r.record k]
    exact ⟨rfl, rfl⟩
  later := fun k hk hge => by
    rw [r.passes] at hk
    omega
  log := fun _ _ => by rw [r.log]

theorem placed (h : s.Sound) (h' : s'.Sound) {place offset : Nat} (hp : place < s.passes.size)
    (ho : offset ≤ s.length place) :
    SamePasses (s.placed place offset) (s'.placed place offset) :=
  ⟨r.program, r.streams, r.passes, rfl, (r.grows h').machineAt h hp ho, r.log, r.result⟩

theorem moveTo (h : s.Sound) (h' : s'.Sound) (index : Nat) :
    SamePasses (s.moveTo index) (s'.moveTo index) := by
  obtain ⟨h1, -, h3, -⟩ := h.passTo_spec (Nat.min_le_right index s.log.size)
  rw [h.moveTo, h'.moveTo, r.log, r.places.passTo, r.record]
  exact r.placed h h' h1 (Nat.sub_le_sub_right h3 _)

theorem atEnd (h : s.Sound) (h' : s'.Sound) : SamePasses s.atEnd s'.atEnd := by
  unfold Session.atEnd
  rw [r.places.newest, r.places.length]
  exact r.placed h h' h.newest_lt (Nat.le_refl _)

theorem stepped (step : Step) (m : Machine) {streams streams' : Streams}
    (ha : streams.Alike streams' s.newest) :
    SamePasses (s.stepped step m streams) (s'.stepped step m streams') := by
  obtain ⟨p1, s1, c1, m1, l1, -, -, -, r1⟩ := s.stepped_fields step m streams
  obtain ⟨p2, s2, c2, m2, l2, -, -, -, r2⟩ := s'.stepped_fields step m streams'
  refine ⟨by rw [p1, p2, r.program], by rw [s1, s2, s.stepped_newest]; exact ha, ?_, by rw [c1, c2, r.cursor],
    by rw [m1, m2], by rw [l1, l2, r.log], by rw [r1, r2, r.result]⟩
  rw [s.stepped_passes, s'.stepped_passes, r.program, r.passes, r.cursor]

/-- At the end of the log, both sessions take the same step. -/
theorem step_atEnd (h : s.Sound) (h' : s'.Sound) (he : s.AtEnd) :
    s'.step.1 = s.step.1 ∧ SamePasses s.step.2 s'.step.2 := by
  have ha : s.streams.Alike s'.streams (s.record s.cursor).pass.number := by
    rw [(h.passes _ h.cursor).number, he.cursor]
    exact r.streams
  have hw : (⟨s'.program, (s'.record s'.cursor).pass, s'.streams, false⟩ : World) =
      World.beside ⟨s.program, (s.record s.cursor).pass, s.streams, false⟩ s'.streams false := by
    rw [r.program, r.record, r.cursor]
    rfl
  have he' := r.places.isAtEnd he
  obtain ⟨hs, hs'⟩ | ⟨step, m, after, after', hs, hs', halike⟩ :=
    Machine.step_beside (m := s.machine)
      (w := ⟨s.program, (s.record s.cursor).pass, s.streams, false⟩) ha false <;>
    rw [← hw, ← r.machine] at hs'
  · rw [h.step_of_none he hs, h'.step_of_none he' hs']
    exact ⟨rfl, r⟩
  · rw [h.step_of_some he hs, h'.step_of_some he' hs']
    refine ⟨rfl, r.stepped step m ?_⟩
    dsimp only at halike
    rwa [(h.passes _ h.cursor).number, he.cursor] at halike

theorem runOut (h : s.Sound) (h' : s'.Sound) (he : s.AtEnd) (fuel : Nat) :
    SamePasses (Session.runOut fuel s) (Session.runOut fuel s') := by
  induction fuel generalizing s s' with
  | zero => exact r
  | succ fuel ih =>
    obtain ⟨hsame, rstep⟩ := r.step_atEnd h h' he
    unfold Session.runOut
    obtain ⟨-, hs⟩ | ⟨step, m, streams, hm, hs⟩ := h.step_atEnd he <;>
      obtain ⟨-, hs'⟩ | ⟨step', m', streams', hm', hs'⟩ := h'.step_atEnd (r.places.isAtEnd he) <;>
      rw [hs, hs'] at hsame rstep ⊢
    · exact r
    · cases hsame
    · cases hsame
    · exact ih rstep (h.stepped he hm).1 (h'.stepped (r.places.isAtEnd he) hm').1 (h.stepped he hm).2

theorem evaluate (h : s.Host) (h' : s'.Host) :
    s'.evaluate.1 = s.evaluate.1 ∧ SamePasses s.evaluate.2 s'.evaluate.2 := by
  have hrun := (r.atEnd h.sound h'.sound).runOut h.sound.atEnd.1 h'.sound.atEnd.1 h.sound.atEnd.2
    (s.program.config.maxSteps + 2)
  rw [(h.sound.evaluate_eq (.inl h.begun)).1, (h.sound.evaluate_eq (.inl h.begun)).2,
    (h'.sound.evaluate_eq (.inl h'.begun)).1, (h'.sound.evaluate_eq (.inl h'.begun)).2, r.program]
  exact ⟨by rw [hrun.result], hrun⟩

theorem step (h : s.Host) (h' : s'.Host) :
    s'.step.1 = s.step.1 ∧ SamePasses s.step.2 s'.step.2 := by
  rcases Nat.lt_or_ge s.position s.log.size with hlt | hge
  · have hlt' : s'.position < s'.log.size := by rwa [r.places.position, r.log]
    rw [h.sound.step_below hlt, h'.sound.step_below hlt', r.places.position, r.log]
    exact ⟨rfl, r.moveTo h.sound h'.sound _⟩
  · exact r.step_atEnd h.sound h'.sound (h.sound.atEnd_of_position h.begun hge)

/-- A command that begins no pass and is no tick has the same answer and the same effect. -/
theorem respond (h : s.Host) (h' : s'.Host) (hn : s'.notices = s.notices) {command : Command}
    (hc : command.beginsPass = false) (ht : command.isTick = false) :
    (s'.respond command).1 = (s.respond command).1 ∧
      SamePasses (s.respond command).2 (s'.respond command).2 := by
  have htold : ∀ notices, SamePasses { s with notices } { s' with notices } := fun _ =>
    ⟨r.program, r.streams, r.passes, r.cursor, r.machine, r.log, r.result⟩
  cases command with
  | step => exact ⟨congrArg Answer.step (r.step h h').1, (r.step h h').2⟩
  | moveTo index => exact ⟨rfl, r.moveTo h.sound h'.sound index⟩
  | moveBack count =>
    refine ⟨rfl, ?_⟩
    simp only [Session.respond, Session.moveBack, r.places.position]
    exact r.moveTo h.sound h'.sound _
  | evaluate => exact ⟨congrArg Answer.value (r.evaluate h h').1, (r.evaluate h h').2⟩
  | tick now => cases ht
  | react => cases hc
  | restart => cases hc
  | subscribe => exact ⟨rfl, htold _⟩
  | unsubscribe => exact ⟨rfl, htold _⟩
  | drain =>
    simp only [Session.respond, Session.drain, hn]
    exact ⟨trivial, htold _⟩

end SamePasses

/-- A tick is for the passes to come. -/
theorem Sound.samePasses_tick (h : s.Sound) (now : Float) : SamePasses s (s.tick now).2 := by
  have hn : s.passNumber = s.newest := (h.passes _ h.newest_lt).number
  exact ⟨rfl, s.streams.alike_tick now (by omega), rfl, rfl, rfl, rfl, rfl⟩

theorem SamePasses.symm (r : SamePasses s s') : SamePasses s' s :=
  ⟨r.program.symm, r.places.newest ▸ r.streams.symm, r.passes.symm, r.cursor.symm, r.machine.symm,
    r.log.symm, r.result.symm⟩

/-- Without the ticks, commands that begin no pass come to the same passes with the same
answers. -/
theorem SamePasses.after (r : SamePasses s s') (h : s.Host) (h' : s'.Host)
    (hn : s'.notices = s.notices) {commands : List Command}
    (hc : ∀ c ∈ commands, c.beginsPass = false) :
    SamePasses (s.after commands) (s'.after (withoutTicks commands)) ∧
      s.answersBesideTicks commands = s'.answers (withoutTicks commands) := by
  induction commands generalizing s s' with
  | nil => exact ⟨r, rfl⟩
  | cons command rest ih =>
    obtain ⟨hhead, hrest⟩ := List.forall_mem_cons.1 hc
    have hnotices := h.respond_notices hhead
    cases ht : command.isTick with
    | true =>
      obtain ⟨now, rfl⟩ : ∃ now, command = .tick now := by
        cases command with
        | tick now => exact ⟨now, rfl⟩
        | _ => cases ht
      exact ih ((h.sound.samePasses_tick now).symm.trans r) (h.respond _) h' hn hrest
    | false =>
      obtain ⟨hanswer, hr⟩ := r.respond h h' hn hhead ht
      have hnotices' : (s'.respond command).2.notices = (s.respond command).2.notices := by
        rw [h'.respond_notices hhead, hnotices, hn]
      obtain ⟨hafter, hanswers⟩ := ih hr (h.respond command) (h'.respond command) hnotices' hrest
      have hkept : withoutTicks (command :: rest) = command :: withoutTicks rest := by
        simp [withoutTicks, ht]
      rw [hkept]
      refine ⟨hafter, ?_⟩
      rw [answersBesideTicks, ht, answers, hanswer, hanswers]
      rfl

/-! ## Where a pass ends -/

/-- A pass that is run to its end comes to the same end after any command that begins no pass. -/
theorem SamePasses.evaluate_respond (h : s.Host) {command : Command}
    (hc : command.beginsPass = false) :
    SamePasses s.evaluate.2 (s.respond command).2.evaluate.2 := by
  have hother : ∀ {s' : Session}, s'.Host → SamePasses s s' →
      SamePasses s.evaluate.2 s'.evaluate.2 := fun h' r => (r.evaluate h h').2
  have hrun := h.sound.evaluate (.inl h.begun)
  cases hn : command.navigates s with
  | true =>
    obtain ⟨place, offset, hp⟩ := h.navigates hn
    have hsame : (s.respond command).2.evaluate = s.evaluate := by
      rw [← (h.respond command).evaluate_atEnd, hp]
      exact h.evaluate_atEnd
    rw [hsame]
    exact .refl _
  | false =>
    cases command with
    | moveTo index => cases hn
    | moveBack count => cases hn
    | step =>
      have hge : s.log.size ≤ s.position := by simpa [Command.navigates] using hn
      have he := h.sound.atEnd_of_position h.begun hge
      have heval := (h.sound.evaluate_eq (.inl h.begun)).1
      rw [h.sound.atEnd_eq he] at heval
      obtain ⟨-, hs⟩ | ⟨step, m, streams, hm, hs⟩ := h.sound.step_atEnd he
      · rw [show s.respond .step = (.step none, s) by simp only [Session.respond, hs]]
        exact .refl _
      · rw [show s.respond .step = (.step (some step), s.stepped step m streams) by
          simp only [Session.respond, hs]]
        -- `evaluate` takes this step first, and one step less afterwards is enough
        obtain ⟨h', he'⟩ := h.sound.stepped he hm
        have hfinished := hrun.finished
        have hfirst : s.evaluate.2 =
            Session.runOut (s.program.config.maxSteps + 1) (s.stepped step m streams) := by
          rw [heval, Session.runOut, hs]
        rw [hfirst] at hfinished
        have hrest := (h'.evaluate_eq (.inr he')).1
        rw [h'.atEnd_eq he', (s.stepped_fields step m streams).1,
          h'.runOut_succ he' hfinished, ← hfirst] at hrest
        rw [hrest]
        exact .refl _
    | evaluate =>
      have heval := (hrun.sound.evaluate_eq (.inr hrun.atEnd)).1
      rw [hrun.atEnd_eq, hrun.sound.runOut_of_finished hrun.atEnd hrun.finished] at heval
      rw [show (s.respond .evaluate).2 = s.evaluate.2 from rfl, heval]
      exact .refl _
    | tick now => exact hother (h.respond _) (h.sound.samePasses_tick now)
    | react => cases hc
    | restart => cases hc
    | subscribe =>
      exact hother (h.respond .subscribe) ⟨rfl, .refl _ _, rfl, rfl, rfl, rfl, rfl⟩
    | unsubscribe =>
      exact hother (h.respond .unsubscribe) ⟨rfl, .refl _ _, rfl, rfl, rfl, rfl, rfl⟩
    | drain => exact hother (h.respond .drain) ⟨rfl, .refl _ _, rfl, rfl, rfl, rfl, rfl⟩

theorem SamePasses.evaluate_after (h : s.Host) {commands : List Command}
    (hc : ∀ c ∈ commands, c.beginsPass = false) :
    SamePasses s.evaluate.2 (s.after commands).evaluate.2 := by
  induction commands generalizing s with
  | nil => exact .refl _
  | cons command rest ih =>
    obtain ⟨hhead, hrest⟩ := List.forall_mem_cons.1 hc
    exact (SamePasses.evaluate_respond h hhead).trans (ih (h.respond command) hrest)

/-! ## What later sessions show of a pass -/

/-- Up to the end of the pass at `place`, the log of `s` is that of `alone`, with the same
machines. -/
structure ShowsPass (alone s : Session) (place : Nat) : Prop where
  stop_le : s.stop place ≤ alone.log.size
  log : ∀ i < s.stop place, s.log[i]? = alone.log[i]?
  machine : ∀ i ≤ s.stop place, (s.moveTo i).machine = (alone.moveTo i).machine
  /-- A pass that another one follows is there to its end. -/
  whole : place < s.newest → s.stop place = alone.log.size

theorem Sound.moveTo_machine (h : s.Sound) {i : Nat} (hi : i ≤ s.log.size) :
    (s.moveTo i).machine = s.machineOf i := by
  rw [h.moveTo, Nat.min_eq_left hi]
  rfl

theorem Grows.moveTo_machine (g : Grows s s') (h : s.Sound) (h' : s'.Sound) {i : Nat}
    (hi : i ≤ s.log.size) : (s'.moveTo i).machine = (s.moveTo i).machine := by
  rw [h'.moveTo_machine (Nat.le_trans hi g.size_le), h.moveTo_machine hi]
  exact g.machineOf h h' hi

/-- As long as the newest pass is not followed, it is what it comes to if it is run to its end. -/
theorem Host.showsPass_evaluate (h : s.Host) : ShowsPass s.evaluate.2 s s.newest := by
  have g := h.sound.grows_evaluate (.inl h.begun)
  have hrun := h.sound.evaluate (.inl h.begun)
  have hstop := h.sound.stop_newest
  exact
    { stop_le := hstop ▸ g.size_le
      log := fun i hi => (g.log i (hstop ▸ hi)).symm
      machine := fun i hi => (g.moveTo_machine h.sound hrun.sound (hstop ▸ hi)).symm
      whole := fun hlt => absurd hlt (Nat.lt_irrefl _) }

/-- Once it is followed, it stays what it was then. -/
theorem Grows.showsPass {pass : Pass} (g : Grows (s.beginPass pass) s') (h : s.Sound)
    (h' : s'.Sound) : ShowsPass s s' s.newest := by
  have hwhole : Grows s s' := (h.grows_beginPass pass).trans g
  have hnext : s.newest + 1 = s.passes.size := Nat.sub_add_cancel h.nonempty
  have hsize : s.passes.size < (s.beginPass pass).passes.size := by
    rw [s.beginPass_size]
    exact Nat.lt_succ_self _
  have hstop : s'.stop s.newest = s.log.size := by
    unfold stop
    rw [hnext, if_pos (Nat.lt_of_lt_of_le hsize g.passes), (g.record _ hsize).1,
      s.beginPass_record]
  exact
    { stop_le := Nat.le_of_eq hstop
      log := fun i hi => hwhole.log i (hstop ▸ hi)
      machine := fun i hi => hwhole.moveTo_machine h h' (hstop ▸ hi)
      whole := fun _ => hstop }

theorem ShowsPass.of_samePasses {alone alone' : Session} {place : Nat}
    (p : ShowsPass alone' s place) (r : SamePasses alone alone') (h : alone.Sound)
    (h' : alone'.Sound) : ShowsPass alone s place := by
  have hsize : s.stop place ≤ alone.log.size := r.log ▸ p.stop_le
  exact
    { stop_le := hsize
      log := fun i hi => r.log ▸ p.log i hi
      machine := fun i hi =>
        (p.machine i hi).trans ((r.grows h').moveTo_machine h h' (Nat.le_trans hi hsize))
      whole := fun hlt => r.log ▸ p.whole hlt }

theorem Host.respond_newest (h : s.Host) {command : Command} (hc : command.beginsPass = false) :
    (s.respond command).2.newest = s.newest := by
  have hrun := (h.sound.evaluate (.inl h.begun)).size
  have h' := h.respond command
  have hrun' := (h'.sound.evaluate (.inl h'.begun)).size
  have hsame := (SamePasses.evaluate_respond h hc).passes
  unfold Session.newest
  rw [← hrun', hsame, hrun]

/-- Whatever a host does but restart, it sees the newest pass as if that had been run to its end
at once. -/
theorem Host.showsPass_after (h : s.Host) {commands : List Command}
    (hc : ∀ c ∈ commands, c ≠ .restart) :
    ShowsPass s.evaluate.2 (s.after commands) s.newest := by
  have hrun := h.sound.evaluate (.inl h.begun)
  induction commands generalizing s with
  | nil => exact h.showsPass_evaluate
  | cons command rest ih =>
    obtain ⟨hhead, hrest⟩ := List.forall_mem_cons.1 hc
    have h' := h.respond command
    have hrun' := h'.sound.evaluate (.inl h'.begun)
    cases hb : command.beginsPass with
    | false =>
      have hlater := ih h' hrest hrun'
      rw [h.respond_newest hb] at hlater
      exact hlater.of_samePasses (SamePasses.evaluate_respond h hb) hrun.sound hrun'.sound
    | true =>
      obtain rfl : command = .react := by
        cases command with
        | react => rfl
        | restart => exact absurd rfl hhead
        | _ => cases hb
      have hnewest : s.evaluate.2.newest = s.newest := by
        unfold Session.newest
        rw [hrun.size]
      have hreact : s.react.2.Host := h'
      have g : Grows s.followed (s.react.2.after rest) :=
        h.followed_grows.trans (Grows.after hreact hrest)
      have hshows := g.showsPass hrun.sound (hreact.after rest).sound
      rw [hnewest] at hshows
      exact hshows

/-! ## Passes and later input -/

/-- Later input does not reach a pass. Ticks while it runs change no answer, no step, no machine
and no result; whatever comes after it, its part of the log and the machines there are those it has
if it is run to its end at once; and each stream that it could read shows it the same values for
ever. -/
theorem passes_isolated {d : Draft} {root : NodeId} {t : Tree} {config : Config} {s : Session}
    (ht : d.finish root = .ok t) (hs : Session.start t config = .ok s)
    (before during after : List Command) (hduring : ∀ c ∈ during, c.beginsPass = false)
    (hafter : ∀ c ∈ after, c ≠ .restart) :
    let now := s.after before
    let ticked := now.after during
    let quiet := now.after (withoutTicks during)
    let later := ticked.after after
    (SamePasses ticked quiet ∧
        now.answersBesideTicks during = now.answers (withoutTicks during) ∧
        ticked.evaluate.1 = now.evaluate.1) ∧
      ShowsPass now.evaluate.2 later now.newest ∧
      ∀ id x, now.streams.find? id = some x → ∃ y, later.streams.find? id = some y ∧
        ∀ pass ≤ now.passNumber, y.visible pass = x.visible pass := by
  intro now ticked quiet later
  have hnow : now.Host := (host_start ht hs).after before
  have hticked : ticked.Host := hnow.after during
  have hlater : later = now.after (during ++ after) := by
    simp only [later, ticked, Session.after, List.foldl_append]
  have hstay : ∀ c ∈ during ++ after, c ≠ .restart := by
    intro c hc hr
    rcases List.mem_append.1 hc with hc | hc
    · have := hduring c hc
      rw [hr] at this
      cases this
    · exact hafter c hc hr
  have hnumber : now.passNumber = now.newest := (hnow.sound.passes _ hnow.sound.newest_lt).number
  refine ⟨⟨?_, ?_, ?_⟩, ?_, fun id x hx => ?_⟩
  · exact ((SamePasses.refl now).after hnow hnow rfl hduring).1
  · exact ((SamePasses.refl now).after hnow hnow rfl hduring).2
  · rw [(hticked.sound.evaluate_eq (.inl hticked.begun)).2,
      (hnow.sound.evaluate_eq (.inl hnow.begun)).2,
      ← (hticked.sound.evaluate_eq (.inl hticked.begun)).1,
      ← (hnow.sound.evaluate_eq (.inl hnow.begun)).1,
      (SamePasses.evaluate_after hnow hduring).result]
  · rw [hlater]
    exact hnow.showsPass_after hstay
  · have g : Grows now later := hlater ▸ Grows.after hnow hstay
    obtain ⟨y, hy, -, -, -, hv⟩ := (g.streams now.newest (Nat.le_refl _)).places id.index x hx
    exact ⟨y, hy, fun pass hp => hv pass (hnumber ▸ hp)⟩

/-- A clock that ticks while the first pass runs, and before the second. -/
theorem passes_isolated_clock : ∃ s, clockTree.edit.finish ⟨3⟩ = .ok clockTree ∧
    Session.start clockTree .default = .ok s ∧
    let during := [.step, .step, .tick 40, .step, .tick 70, .evaluate]
    let after := [.tick 90, .react, .moveTo 2]
    s.answersBesideTicks during = s.answers (withoutTicks during) ∧
      ShowsPass s.evaluate.2 ((s.after during).after after) s.newest := by
  have hisolated := passes_isolated finish_clock start_clock []
    [.step, .step, .tick 40, .step, .tick 70, .evaluate] [.tick 90, .react, .moveTo 2]
    (by simp [Command.beginsPass]) (by simp)
  exact ⟨_, finish_clock, start_clock, hisolated.1.2.1, hisolated.2.1⟩

end Session
end ReactiveLang
