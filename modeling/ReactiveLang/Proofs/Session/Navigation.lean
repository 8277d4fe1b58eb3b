import ReactiveLang.Proofs.Session.Interval

/-!
# Navigation

Going back and forth in the log shows a program's run as it was, and changes nothing in it.

* `replay_exact`: `moveTo` shows the machine that the run had when it first came to a place in the
  log, a step below the end of the log is the logged one, and it does not matter how often
  machines are kept.
* `navigation_invisible`: a session whose cursor was moved around is the one whose cursor never
  was, but for the cursor.
-/

namespace ReactiveLang

/-- The command only moves the cursor: it goes to a place in the log, or takes a logged step
again. -/
def Command.navigates (s : Session) : Command → Bool
  | .moveTo _ => true
  | .moveBack _ => true
  | .step => s.position < s.log.size
  | _ => false

namespace Session

/-- The commands that do more than move the cursor. -/
def essential (s : Session) : List Command → List Command
  | [] => []
  | c :: rest =>
    if c.navigates s then essential (s.respond c).2 rest else c :: essential (s.respond c).2 rest

/-- The answers to all commands. -/
def answers (s : Session) : List Command → List Answer
  | [] => []
  | c :: rest => (s.respond c).1 :: answers (s.respond c).2 rest

/-- The answers to the commands that do more than move the cursor. -/
def essentialAnswers (s : Session) : List Command → List Answer
  | [] => []
  | c :: rest =>
    if c.navigates s then essentialAnswers (s.respond c).2 rest
    else (s.respond c).1 :: essentialAnswers (s.respond c).2 rest

variable {s : Session}

/-! ## Moving the cursor -/

/-- A command that navigates changes nothing but the cursor. -/
theorem Host.navigates (h : s.Host) {command : Command} (hn : command.navigates s = true) :
    ∃ place offset, (s.respond command).2 = s.placed place offset := by
  cases command with
  | moveTo index => exact ⟨_, _, h.sound.moveTo index⟩
  | moveBack count => exact ⟨_, _, h.sound.moveTo _⟩
  | step =>
    have hlt : s.position < s.log.size := by simpa [Command.navigates] using hn
    simp only [Session.respond, h.sound.step_below hlt, h.sound.moveTo]
    exact ⟨_, _, rfl⟩
  | _ => cases hn

theorem Host.atEnd (h : s.Host) : s.atEnd.Host := ⟨h.sound.atEnd.1, h.begun⟩

theorem Host.evaluate_atEnd (h : s.Host) : s.atEnd.evaluate = s.evaluate := by
  have he := h.sound.evaluate_eq (.inl h.begun)
  have he' := h.atEnd.sound.evaluate_eq (.inl h.begun)
  rw [h.atEnd.sound.atEnd_eq h.sound.atEnd.2] at he'
  exact Prod.ext (he'.2.trans he.2.symm) (he'.1.trans he.1.symm)

theorem atEnd_announce (s : Session) (r : Reaction) : (s.announce r).atEnd = s.atEnd.announce r :=
  rfl

theorem Host.react_atEnd (h : s.Host) : s.atEnd.react = s.react := by
  have hf : s.atEnd.followed = s.followed := by
    unfold followed
    rw [h.evaluate_atEnd]
  rw [react_eq, react_eq, hf]

theorem RunOut.atEnd_eq {s' : Session} (h : RunOut s s') : s'.atEnd = s' :=
  h.sound.atEnd_eq h.atEnd

theorem Host.tick_atEnd (h : s.Host) (now : Float) :
    s.atEnd.tick now = ((s.tick now).1, (s.tick now).2.atEnd) := by
  have g := h.sound.grows_tick now
  have hm := g.machineAt h.sound h.sound.newest_lt (Nat.le_refl _)
  refine Prod.ext rfl ?_
  have hlen : (s.tick now).2.length (s.tick now).2.newest = s.length s.newest := rfl
  unfold Session.atEnd Session.placed
  rw [hlen, show (s.tick now).2.newest = s.newest from rfl, hm]
  rfl

/-- Any other command has the same answer and the same effect at the end of the log. -/
theorem Host.respond_atEnd (h : s.Host) {command : Command} (hn : command.navigates s = false) :
    s.atEnd.respond command = ((s.respond command).1, (s.respond command).2.atEnd) := by
  cases command with
  | moveTo index => cases hn
  | moveBack count => cases hn
  | step =>
    have hge : s.log.size ≤ s.position := by simpa [Command.navigates] using hn
    have he := h.sound.atEnd_of_position h.begun hge
    have hend : s.step.2.atEnd = s.step.2 := by
      obtain ⟨-, hs⟩ | ⟨step, m, streams, hm, hs⟩ := h.sound.step_atEnd he
      · rw [hs]
        exact h.sound.atEnd_eq he
      · rw [hs]
        obtain ⟨h', he'⟩ := h.sound.stepped he hm
        exact h'.atEnd_eq he'
    simp only [Session.respond, h.sound.atEnd_eq he, hend]
  | evaluate =>
    simp only [Session.respond, h.evaluate_atEnd, (h.sound.evaluate (.inl h.begun)).atEnd_eq]
  | tick now => simp only [Session.respond, h.tick_atEnd]
  | react =>
    have hend : s.react.2.atEnd = s.react.2 := by
      obtain ⟨hf, he⟩ := h.sound.followed h.begun
      have hr := hf.evaluate (.inr he)
      have hsame := hr.atEnd_eq
      rw [react_eq, atEnd_announce, hsame]
    simp only [Session.respond, h.react_atEnd, hend]
  | restart =>
    have hr := h.renewed.sound.evaluate (.inl h.renewed.begun)
    have hrestart : s.atEnd.restart = s.restart := rfl
    have hend : s.restart.2.atEnd = s.restart.2 := hr.atEnd_eq
    simp only [Session.respond, hrestart, hend]
  | subscribe => rfl
  | unsubscribe => rfl
  | drain => rfl

/-- A session is at its end after the essential commands, and has given the same answers. -/
theorem Host.after_essential (h : s.Host) (commands : List Command) :
    s.atEnd.after (s.essential commands) = (s.after commands).atEnd ∧
      s.atEnd.answers (s.essential commands) = s.essentialAnswers commands := by
  induction commands generalizing s with
  | nil => exact ⟨rfl, rfl⟩
  | cons command rest ih =>
    have hrest := ih (h.respond command)
    unfold essential essentialAnswers
    cases hn : command.navigates s with
    | true =>
      obtain ⟨place, offset, hp⟩ := h.navigates hn
      have hsame : (s.respond command).2.atEnd = s.atEnd := by
        rw [hp]
        rfl
      rw [hsame] at hrest
      exact hrest
    | false =>
      have hr := h.respond_atEnd hn
      constructor
      · rw [if_neg (by simp)]
        show (s.atEnd.respond command).2.after _ = _
        rw [hr]
        exact hrest.1
      · rw [if_neg (by simp), if_neg (by simp), answers, hr]
        exact congrArg _ hrest.2

/-! ## From the start of a program -/

theorem start_cases {t : Tree} {config : Config} {s : Session} (h : Session.start t config = .ok s) :
    config.fault? = none ∧ Conflict.anyFatal (Program.ofTree t config).conflicts = false ∧
      s = ofProgram (Program.ofTree t config) := by
  unfold Session.start at h
  split at h
  · cases h
  · rename_i hf
    dsimp only at h
    split at h
    · cases h
    · rename_i hc
      cases h
      exact ⟨hf, by simpa using hc, rfl⟩

/-- A session that has just begun a program is as it is when it begins it once more. -/
theorem start_renewed {t : Tree} {config : Config} {s : Session}
    (h : Session.start t config = .ok s) : s.renewed = s := by
  obtain ⟨-, -, rfl⟩ := start_cases h
  rfl

theorem start_eq {t : Tree} {config : Config} (hf : config.fault? = none)
    (hc : Conflict.anyFatal (Program.ofTree t config).conflicts = false) :
    Session.start t config = .ok (ofProgram (Program.ofTree t config)) := by
  unfold Session.start
  rw [hf]
  simp [hc]

theorem snapshotInterval_pos {config : Config} (h : config.fault? = none) :
    0 < config.snapshotInterval := by
  unfold Config.fault? at h
  split at h
  · cases h
  · omega

theorem fault?_withInterval {config : Config} (h : config.fault? = none) {interval : Nat}
    (hi : 0 < interval) : { config with snapshotInterval := interval }.fault? = none := by
  unfold Config.fault? at h ⊢
  split at h
  · cases h
  · rw [if_neg (by exact Nat.ne_of_gt hi)]
    exact h

/-- A session that has just begun a program is as it has to be. -/
theorem host_start {d : Draft} {root : NodeId} {t : Tree} {config : Config} {s : Session}
    (ht : d.finish root = .ok t) (hs : Session.start t config = .ok s) : s.Host := by
  obtain ⟨hf, -, rfl⟩ := start_cases hs
  refine host_ofProgram (Machine.start_isLive ?_) (snapshotInterval_pos hf)
  have hcode : (Program.ofTree t config).code = Code.ofTree t := rfl
  rw [hcode, Code.ofNode_ofTree, List.size_toArray]
  exact List.length_pos_iff.2 ((Draft.finish_wellFormed ht).code_ne_nil ⟨0, .root⟩)

/-- A program may keep machines at any interval. -/
theorem start_withInterval {t : Tree} {config : Config} {s : Session}
    (hs : Session.start t config = .ok s) {interval : Nat} (hi : 0 < interval) :
    ∃ s', Session.start t { config with snapshotInterval := interval } = .ok s' ∧ SameRun s s' := by
  obtain ⟨hf, hc, rfl⟩ := start_cases hs
  refine ⟨_, start_eq (fault?_withInterval hf hi) hc, ⟨interval, rfl⟩, rfl, rfl, fun k => ?_, rfl,
    rfl, rfl, rfl, rfl, rfl, rfl⟩
  cases k <;> exact ⟨rfl, rfl⟩

/-- The sessions of a course have the machines that the log first came to, after any commands. -/
theorem recorded_after {d : Draft} {root : NodeId} {t : Tree} {config : Config}
    (ht : d.finish root = .ok t) (hs : Session.start t config = .ok s) (commands : List Command) :
    Recorded ((Course.start s).run commands).sessions (s.after commands) := by
  have hstart := host_start ht hs
  have hfirst := recorded_renewed hstart
  rw [start_renewed hs] at hfirst
  have hrun := Course.recorded (c := Course.start s) hstart hfirst commands
  rwa [show ((Course.start s).run commands).now = s.after commands from
    (Course.start s).run_now commands] at hrun

/-- The tree of the program `Time()`. -/
def clockTree : Tree :=
  ⟨#[⟨.reference "Time", .zero⟩, ⟨.call ⟨0⟩ [], .zero⟩, ⟨.block [⟨1⟩], .zero⟩,
    ⟨.program ⟨2⟩, .zero⟩], #[some ⟨1⟩, some ⟨2⟩, some ⟨3⟩, none], ⟨3⟩⟩

theorem finish_clock : clockTree.edit.finish ⟨3⟩ = .ok clockTree := rfl

theorem start_clock : Session.start clockTree .default =
    .ok (ofProgram (Program.ofTree clockTree .default)) :=
  start_eq (by decide) (by decide +kernel)

/-- Replay is exact. After any commands `moveTo` shows the machine that the run had when it first
came to a place in the log; a step below the end of the log is the logged one and goes on to the
next place; and none of this depends on how often machines are kept. -/
theorem replay_exact {d : Draft} {root : NodeId} {t : Tree} {config : Config} {s : Session}
    (ht : d.finish root = .ok t) (hs : Session.start t config = .ok s) (commands : List Command) :
    let c := (Course.start s).run commands
    (∀ i, (c.now.moveTo i).position = min i c.now.log.size ∧
        c.machineAt? (min i c.now.log.size) = some (c.now.moveTo i).machine) ∧
      (c.now.position < c.now.log.size → ∃ step, c.now.log[c.now.position]? = some step ∧
        c.now.step = (some step, c.now.moveTo (c.now.position + 1)) ∧
        c.now.step.2.position = c.now.position + 1) ∧
      ∀ interval, 0 < interval → ∃ s',
        Session.start t { config with snapshotInterval := interval } = .ok s' ∧
          (s'.after commands).log = c.now.log ∧
          ∀ i, ((s'.after commands).moveTo i).machine = (c.now.moveTo i).machine := by
  have hstart := host_start ht hs
  have hrec := recorded_after ht hs commands
  have hhost := hstart.after commands
  have hnow : ((Course.start s).run commands).now = s.after commands := (Course.start s).run_now _
  dsimp only
  rw [hnow]
  refine ⟨fun i => ⟨hhost.sound.moveTo_position i, ?_⟩, fun hlt => ?_, fun interval hi => ?_⟩
  · rw [Course.machineAt?, hrec.first _ (Nat.min_le_right _ _), hhost.sound.moveTo]
    rfl
  · have hstep := hhost.sound.step_below hlt
    refine ⟨_, Array.getElem?_eq_getElem hlt, ?_, ?_⟩
    · rw [hstep, Array.getElem?_eq_getElem hlt]
    · rw [hstep, hhost.sound.moveTo_position]
      omega
  · obtain ⟨s', hs', hsame⟩ := start_withInterval hs hi
    have hstart' := host_start ht hs'
    have hrun := hsame.after hstart hstart' commands
    exact ⟨s', hs', hrun.log,
      fun i => (hrun.moveTo hhost.sound (hstart'.after commands).sound i).machine⟩

/-- After a reaction to a tick, the third step of the first pass is there as it was. -/
theorem replay_exact_clock : ∃ s, clockTree.edit.finish ⟨3⟩ = .ok clockTree ∧
    Session.start clockTree .default = .ok s ∧
    let c := (Course.start s).run [.evaluate, .tick 40, .react]
    (c.now.moveTo 3).position = min 3 c.now.log.size ∧
      c.machineAt? (min 3 c.now.log.size) = some (c.now.moveTo 3).machine :=
  ⟨_, finish_clock, start_clock,
    (replay_exact finish_clock start_clock [.evaluate, .tick 40, .react]).1 3⟩

/-- Navigation is invisible. A command that navigates changes the cursor and its machine only, and
without such commands a session comes to the same state, but for the cursor, with the same
answers. -/
theorem navigation_invisible {d : Draft} {root : NodeId} {t : Tree} {config : Config} {s : Session}
    (ht : d.finish root = .ok t) (hs : Session.start t config = .ok s) (commands : List Command) :
    (∀ command, command.navigates (s.after commands) = true → ∃ cursor machine,
        ((s.after commands).respond command).2 = { s.after commands with cursor, machine }) ∧
      (∃ cursor machine,
        s.after (s.essential commands) = { s.after commands with cursor, machine }) ∧
      s.answers (s.essential commands) = s.essentialAnswers commands := by
  have hstart := host_start ht hs
  have hhost := hstart.after commands
  have hend : s.atEnd = s := by
    obtain ⟨-, -, rfl⟩ := start_cases hs
    rfl
  obtain ⟨hafter, hanswers⟩ := hstart.after_essential commands
  rw [hend] at hafter hanswers
  refine ⟨fun command hn => ?_, ?_, hanswers⟩
  · obtain ⟨place, offset, hp⟩ := hhost.navigates hn
    exact ⟨_, _, hp⟩
  · exact ⟨_, _, hafter⟩

/-- Going back before a reaction changes no answer. -/
theorem navigation_invisible_clock : ∃ s, clockTree.edit.finish ⟨3⟩ = .ok clockTree ∧
    Session.start clockTree .default = .ok s ∧
    let commands := [.evaluate, .moveBack 2, .step, .tick 40, .react]
    s.answers (s.essential commands) = s.essentialAnswers commands :=
  ⟨_, finish_clock, start_clock,
    (navigation_invisible finish_clock start_clock
      [.evaluate, .moveBack 2, .step, .tick 40, .react]).2.2⟩

end Session
end ReactiveLang
