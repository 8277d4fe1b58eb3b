import ReactiveLang.Proofs.Session.Running

/-!
# What a host does to a session

A host gives commands. `Session.respond` is what one command does, and a `Course` has every session
that the commands have led through since the program began, also between the steps of `evaluate`
and `react`: that is where a machine was first.

* `Session.Host`: what holds of a session between two commands. `Host.respond` keeps it.
* `Course.recorded`: the machine at each place in the log is the one that the course had when the
  log first came to that place.
-/

namespace ReactiveLang

inductive Command where
  | step
  | moveTo (index : Nat)
  | moveBack (count : Nat)
  | evaluate
  | tick (now : Float)
  | react
  | restart
  | subscribe
  | unsubscribe
  | drain

/-- What the host gets for a command. -/
inductive Answer where
  | done
  | step (taken : Option Step)
  | value (v : Value)
  | changed (streams : List StreamId)
  | notices (unread : List Notice)

namespace Session

def respond (s : Session) : Command → Answer × Session
  | .step => (.step s.step.1, s.step.2)
  | .moveTo index => (.done, s.moveTo index)
  | .moveBack count => (.done, s.moveBack count)
  | .evaluate => (.value s.evaluate.1, s.evaluate.2)
  | .tick now => (.changed (s.tick now).1, (s.tick now).2)
  | .react => (.value s.react.1, s.react.2)
  | .restart => (.value s.restart.1, s.restart.2)
  | .subscribe => (.done, s.subscribe)
  | .unsubscribe => (.done, s.unsubscribe)
  | .drain => (.notices s.drain.1, s.drain.2)

/-- The session after some commands. -/
def after (s : Session) (commands : List Command) : Session :=
  commands.foldl (fun s c => (s.respond c).2) s

/-- The session as it begins its program once more. -/
def renewed (s : Session) : Session := { ofProgram s.program with notices := s.notices }

/-! ## The sessions on the way -/

/-- The sessions after each step of `runOut`. -/
def ranThrough : Nat → Session → List Session
  | 0, _ => []
  | fuel + 1, s =>
    match s.step with
    | (some _, s) => s :: ranThrough fuel s
    | (none, s) => [s]

/-- The sessions that `evaluate` leads through. -/
def evaluatedThrough (s : Session) : List Session :=
  let s := if s.position < s.log.size then s.moveTo s.log.size else s
  s :: ranThrough (s.program.config.maxSteps + 2) s

/-- The sessions that `react` leads through. -/
def reactedThrough (s : Session) : List Session :=
  s.evaluatedThrough ++ (s.followed :: s.followed.evaluatedThrough) ++ [s.react.2]

/-- The sessions that a command leads through, the last one included. -/
def passedThrough (s : Session) : Command → List Session
  | .evaluate => s.evaluatedThrough
  | .react => s.reactedThrough
  | c => [(s.respond c).2]

end Session

/-- The sessions since the program began, oldest first, and the one that the host has now. -/
structure Course where
  sessions : List Session
  now : Session

namespace Course

def start (s : Session) : Course := ⟨[s], s⟩

/-- What a command adds; a restart begins anew. -/
def next (c : Course) (command : Command) : Course :=
  match command with
  | .restart => ⟨c.now.renewed :: c.now.renewed.evaluatedThrough, c.now.restart.2⟩
  | command => ⟨c.sessions ++ c.now.passedThrough command, (c.now.respond command).2⟩

def run (c : Course) (commands : List Command) : Course := commands.foldl next c

theorem run_now (c : Course) (commands : List Command) :
    (c.run commands).now = c.now.after commands := by
  induction commands generalizing c with
  | nil => rfl
  | cons command rest ih =>
    rw [run, List.foldl_cons, ← run, ih]
    cases command <;> rfl

/-- The machine that the course had when its log first had so many steps. -/
def machineAt? (c : Course) (index : Nat) : Option Machine :=
  (c.sessions.find? fun s => s.log.size = index).map fun s => s.machine

end Course

namespace Session

/-- What holds between two commands. -/
structure Host (s : Session) : Prop where
  sound : s.Sound
  begun : s.Begun

/-- Every session of a course had the machine of its place in the log, when it was the first. -/
structure Recorded (sessions : List Session) (now : Session) : Prop where
  size_le : ∀ p ∈ sessions, p.log.size ≤ now.log.size
  first : ∀ i ≤ now.log.size,
    (sessions.find? fun p => p.log.size = i).map (fun p => p.machine) = some (now.machineOf i)

variable {s s' : Session} {sessions : List Session}

theorem Recorded.earlier (hr : Recorded sessions s) (s' : Session) {i : Nat}
    (hi : i ≤ s.log.size) :
    ((sessions ++ [s']).find? fun p => p.log.size = i).map (fun p => p.machine) =
      some (s.machineOf i) := by
  have hfirst := hr.first i hi
  rw [List.find?_append, ← hfirst]
  cases hf : sessions.find? fun p => p.log.size = i with
  | none => rw [hf] at hfirst; cases hfirst
  | some p => rfl

theorem Recorded.sizes (hr : Recorded sessions s) (hle : s.log.size ≤ s'.log.size) :
    ∀ p ∈ sessions ++ [s'], p.log.size ≤ s'.log.size := by
  intro p hp
  rcases List.mem_append.1 hp with hp | hp
  · exact Nat.le_trans (hr.size_le p hp) hle
  · obtain rfl := List.mem_singleton.1 hp
    exact Nat.le_refl _

/-- A session whose log is no longer than before. -/
theorem Recorded.same (hr : Recorded sessions s) (h : s.Sound) (h' : s'.Sound) (g : Grows s s')
    (hsize : s'.log.size = s.log.size) : Recorded (sessions ++ [s']) s' := by
  refine ⟨hr.sizes (Nat.le_of_eq hsize.symm), fun i hi => ?_⟩
  rw [hsize] at hi
  rw [g.machineOf h h' hi]
  exact hr.earlier s' hi

/-- A session whose log has one step more than before. -/
theorem Recorded.longer (hr : Recorded sessions s) (h : s.Sound) (h' : s'.Sound) (g : Grows s s')
    (hsize : s'.log.size = s.log.size + 1) (hm : s'.machine = s'.machineOf s'.log.size) :
    Recorded (sessions ++ [s']) s' := by
  refine ⟨hr.sizes (by omega), fun i hi => ?_⟩
  rcases Nat.lt_or_ge s.log.size i with hlt | hge
  · obtain rfl : i = s'.log.size := by omega
    have hnone : (sessions.find? fun p => p.log.size = s'.log.size) = none := by
      rw [List.find?_eq_none]
      intro p hp
      have := hr.size_le p hp
      simp only [decide_eq_true_eq]
      omega
    rw [List.find?_append, hnone, ← hm]
    simp
  · rw [g.machineOf h h' hge]
    exact hr.earlier s' hge

theorem machineOf_size (h : s.Sound) (he : s.AtEnd) (hb : s.Begun) :
    s.machine = s.machineOf s.log.size := by
  rw [machineOf, h.passTo_size hb, ← h.stop_newest]
  exact h.atEnd_machine he

theorem begun_stepped (h : s.Sound) {step : Step} {m : Machine} {streams : Streams}
    (hs : s.machine.step ⟨s.program, (s.record s.cursor).pass, s.streams, false⟩ =
      some (step, m, streams)) : (s.stepped step m streams).Begun := by
  have h1 := (h.passes _ h.newest_lt).start_le
  rw [h.stop_newest] at h1
  refine .inr ?_
  rw [s.stepped_newest, ((grows_step h hs).record _ h.newest_lt).1, (s.stepped_fields step m streams).2.2.2.2.1,
    Array.size_push]
  omega

/-- A step at the end of the log. -/
theorem Recorded.stepped (hr : Recorded sessions s) (h : s.Sound) (he : s.AtEnd) {step : Step}
    {m : Machine} {streams : Streams}
    (hs : s.machine.step ⟨s.program, (s.record s.cursor).pass, s.streams, false⟩ =
      some (step, m, streams)) :
    Recorded (sessions ++ [s.stepped step m streams]) (s.stepped step m streams) := by
  obtain ⟨h', he'⟩ := h.stepped he hs
  have g := grows_step h hs
  have hsize : (s.stepped step m streams).log.size = s.log.size + 1 := by
    rw [(s.stepped_fields step m streams).2.2.2.2.1, Array.size_push]
  exact hr.longer h h' g hsize (machineOf_size h' he' (begun_stepped h hs))

theorem Recorded.ranThrough (hr : Recorded sessions s) (h : s.Sound) (he : s.AtEnd)
    (fuel : Nat) :
    Recorded (sessions ++ Session.ranThrough fuel s) (Session.runOut fuel s) := by
  induction fuel generalizing s sessions with
  | zero =>
    rw [Session.ranThrough, List.append_nil]
    exact hr
  | succ fuel ih =>
    unfold Session.ranThrough Session.runOut
    obtain ⟨hfin, hstep⟩ | ⟨step, m, streams, hs, hstep⟩ := h.step_atEnd he
    · rw [hstep]
      exact hr.same h h (h.grows_same rfl rfl rfl rfl) rfl
    · rw [hstep]
      obtain ⟨h', he'⟩ := h.stepped he hs
      have := ih (hr.stepped h he hs) h' he'
      rwa [List.append_assoc] at this

theorem Recorded.evaluatedThrough (hr : Recorded sessions s) (h : s.Sound)
    (hb : s.Begun ∨ s.AtEnd) : Recorded (sessions ++ s.evaluatedThrough) s.evaluate.2 := by
  obtain ⟨h', he'⟩ := h.atEnd
  have hthrough : s.evaluatedThrough =
      s.atEnd :: Session.ranThrough (s.program.config.maxSteps + 2) s.atEnd := by
    unfold Session.evaluatedThrough
    rw [h.evaluate_start hb]
    rfl
  have hr' := hr.same h h' (h.grows_same rfl rfl rfl rfl) rfl
  rw [hthrough, (h.evaluate_eq hb).1, ← List.singleton_append, ← List.append_assoc]
  exact hr'.ranThrough h' he' _

theorem Recorded.announce (hr : Recorded sessions s) (h : s.Sound) (r : Reaction) :
    Recorded (sessions ++ [s.announce r]) (s.announce r) :=
  hr.same h (h.told _ _) (h.grows_same rfl rfl rfl rfl) rfl

theorem Recorded.reactedThrough (hr : Recorded sessions s) (h : s.Host) :
    Recorded (sessions ++ s.reactedThrough) s.react.2 := by
  have h1 := h.sound.evaluate (.inl h.begun)
  obtain ⟨h2, he2⟩ := h.sound.followed h.begun
  have h3 := h2.evaluate (.inr he2)
  have hr1 := hr.evaluatedThrough h.sound (.inl h.begun)
  have hr2 : Recorded _ s.followed := hr1.same h1.sound h2 (h1.sound.grows_beginPass _) rfl
  have hr3 := hr2.evaluatedThrough h2 (.inr he2)
  have hr4 := hr3.announce h3.sound (s.followed.evaluate.2.reaction s.followed.evaluate.1)
  unfold Session.reactedThrough
  rw [react_eq]
  simpa [List.append_assoc] using hr4

/-! ## Every command -/

theorem sound_ofProgram {p : Program} (hl : (Machine.start p).IsLive)
    (hi : 0 < p.config.snapshotInterval) : (ofProgram p).Sound := by
  have hlen : (ofProgram p).length 0 = 0 := rfl
  refine ⟨hl, hi, Streams.regular_empty, Nat.one_pos, rfl, fun k hk => ?_, rfl, Nat.one_pos,
    Nat.zero_le _, rfl⟩
  obtain rfl : k = 0 := Nat.lt_one_iff.1 hk
  refine ⟨rfl, Nat.le_refl _, ⟨nofun, nofun⟩, nofun, fun i hi => ?_, fun hc => ?_, ?_⟩
  · exact absurd hi (Nat.not_lt_zero i)
  · exact absurd hc (Nat.lt_irrefl 0)
  · rw [hlen, Nat.zero_div]
    refine ⟨rfl, fun j hj => ?_⟩
    obtain rfl : j = 0 := Nat.le_zero.1 hj
    rw [Nat.zero_mul]
    rfl

theorem host_ofProgram {p : Program} (hl : (Machine.start p).IsLive)
    (hi : 0 < p.config.snapshotInterval) : (ofProgram p).Host :=
  ⟨sound_ofProgram hl hi, .inl rfl⟩

theorem Host.told (h : s.Host) (history : Array Reaction) (notices : Option (List Notice)) :
    ({ s with history, notices } : Session).Host :=
  ⟨h.sound.told history notices, h.begun⟩

theorem Host.renewed (h : s.Host) : s.renewed.Host :=
  (host_ofProgram h.sound.live h.sound.interval).told _ _

theorem recorded_renewed (h : s.Host) : Recorded [s.renewed] s.renewed := by
  have hs : s.renewed.log.size = 0 := rfl
  refine ⟨fun p hp => Nat.le_of_eq (by rw [List.mem_singleton.1 hp]), fun i hi => ?_⟩
  obtain rfl : i = 0 := by omega
  have hm := machineOf_size h.renewed.sound ⟨rfl, rfl⟩ h.renewed.begun
  rw [hs] at hm
  rw [← hm]
  rfl

theorem Host.moveTo (h : s.Host) (index : Nat) : (s.moveTo index).Host := by
  refine ⟨h.sound.moveTo_sound index, ?_⟩
  rw [h.sound.moveTo]
  exact h.begun

theorem Recorded.moveTo (hr : Recorded sessions s) (h : s.Host) (index : Nat) :
    Recorded (sessions ++ [s.moveTo index]) (s.moveTo index) := by
  have h' := h.sound.moveTo_sound index
  rw [h.sound.moveTo] at h' ⊢
  exact hr.same h.sound h' (h.sound.grows_same rfl rfl rfl rfl) rfl

/-- Below the end of the log `step` moves the cursor, at the end it may take a new step. -/
theorem Host.step_cases (h : s.Host) :
    (s.position < s.log.size ∧ s.step = (s.log[s.position]?, s.moveTo (s.position + 1))) ∨
      (s.AtEnd ∧ s.machine.isFinished = true ∧ s.step = (none, s)) ∨
      (s.AtEnd ∧ ∃ step m streams,
        s.machine.step ⟨s.program, (s.record s.cursor).pass, s.streams, false⟩ =
          some (step, m, streams) ∧ s.step = (some step, s.stepped step m streams)) := by
  rcases Nat.lt_or_ge s.position s.log.size with hlt | hge
  · exact .inl ⟨hlt, h.sound.step_below hlt⟩
  · have he := h.sound.atEnd_of_position h.begun hge
    rcases h.sound.step_atEnd he with hfin | htaken
    · exact .inr (.inl ⟨he, hfin⟩)
    · exact .inr (.inr ⟨he, htaken⟩)

theorem Recorded.step (hr : Recorded sessions s) (h : s.Host) :
    Recorded (sessions ++ [s.step.2]) s.step.2 := by
  obtain ⟨-, hs⟩ | ⟨-, -, hs⟩ | ⟨he, step, m, streams, hm, hs⟩ := h.step_cases
  · rw [hs]
    exact hr.moveTo h _
  · rw [hs]
    exact hr.same h.sound h.sound (h.sound.grows_same rfl rfl rfl rfl) rfl
  · rw [hs]
    exact hr.stepped h.sound he hm

theorem Recorded.told (hr : Recorded sessions s) (h : s.Host) (history : Array Reaction)
    (notices : Option (List Notice)) :
    Recorded (sessions ++ [{ s with history, notices }]) { s with history, notices } :=
  hr.same h.sound (h.told history notices).sound (h.sound.grows_same rfl rfl rfl rfl) rfl

theorem Host.step (h : s.Host) : s.step.2.Host := by
  obtain ⟨-, hs⟩ | ⟨-, -, hs⟩ | ⟨he, step, m, streams, hm, hs⟩ := h.step_cases
  · rw [hs]
    exact h.moveTo _
  · rw [hs]
    exact h
  · rw [hs]
    exact ⟨(h.sound.stepped he hm).1, begun_stepped h.sound hm⟩

theorem Host.evaluate (h : s.Host) : s.evaluate.2.Host :=
  have hr := h.sound.evaluate (.inl h.begun)
  ⟨hr.sound, hr.begun⟩

/-- A command leaves a session as it has to be. -/
theorem Host.respond (h : s.Host) (command : Command) : (s.respond command).2.Host := by
  cases command with
  | step => exact h.step
  | moveTo index => exact h.moveTo index
  | moveBack count => exact h.moveTo _
  | evaluate => exact h.evaluate
  | tick now => exact ⟨h.sound.tick now, h.begun⟩
  | react => exact ⟨(h.sound.react h.begun).1, (h.sound.react h.begun).2.1⟩
  | restart => exact h.renewed.evaluate
  | subscribe => exact h.told _ _
  | unsubscribe => exact h.told _ _
  | drain => exact h.told _ _

theorem Host.after (h : s.Host) (commands : List Command) : (s.after commands).Host := by
  induction commands generalizing s with
  | nil => exact h
  | cons command rest ih => exact ih (h.respond command)

/-- All that a command leads through is recorded, and a restart begins a new record. -/
theorem recorded_next {c : Course} (h : c.now.Host) (hr : Recorded c.sessions c.now)
    (command : Command) : Recorded (c.next command).sessions (c.next command).now := by
  cases command with
  | step => exact hr.step h
  | moveTo index => exact hr.moveTo h index
  | moveBack count => exact hr.moveTo h _
  | evaluate => exact hr.evaluatedThrough h.sound (.inl h.begun)
  | tick now => exact hr.same h.sound (h.sound.tick now) (h.sound.grows_tick now) rfl
  | react => exact hr.reactedThrough h
  | restart => exact (recorded_renewed h).evaluatedThrough h.renewed.sound (.inl h.renewed.begun)
  | subscribe => exact hr.told h _ _
  | unsubscribe => exact hr.told h _ _
  | drain => exact hr.told h _ _

end Session

/-- The machine at each place in the log is the one that the course had when it first came
there. -/
theorem Course.recorded {c : Course} (h : c.now.Host) (hr : Session.Recorded c.sessions c.now)
    (commands : List Command) :
    Session.Recorded (c.run commands).sessions (c.run commands).now := by
  induction commands generalizing c with
  | nil => exact hr
  | cons command rest ih =>
    refine ih ?_ (Session.recorded_next h hr command)
    have := h.respond command
    cases command <;> exact this

end ReactiveLang
