import ReactiveLang.Proofs.Session.Isolation

/-!
# The log and its passes

The log is the steps of the first pass, then those of the second, and so on; the history says the
same of the passes after the first.

* `Grows.length_eq`: a finished pass gets no more steps.
* `Chronicled`: the history is what the passes after the first are; `Host.respond_chronicled`.
* `log_partitioned`: passes, log, history, kept machines and cursor agree after any commands.
-/

namespace ReactiveLang.Session

variable {s s' : Session}

/-! ## Finished passes -/

theorem Grows.stop_le (h : s.Sound) (g : Grows s s') {k : Nat} (hk : k < s.passes.size) :
    s.stop k ≤ s'.stop k := by
  have hle := g.passes
  rcases Nat.lt_or_ge (k + 1) s.passes.size with hlt | hge
  · exact Nat.le_of_eq (by rw [stop, stop, if_pos hlt, if_pos (by omega), (g.record _ hlt).1])
  · obtain rfl : k = s.newest := by unfold newest; omega
    rw [h.stop_newest, stop]
    split
    · rename_i hlt
      exact g.later _ hlt hge
    · exact g.size_le

/-- A finished pass gets no more steps. -/
theorem Grows.length_eq (h : s.Sound) (h' : s'.Sound) (g : Grows s s') {k : Nat}
    (hk : k < s.passes.size) (hf : (s.machineAt k (s.length k)).isFinished = true) :
    s'.length k = s.length k := by
  have hstop := g.stop_le h hk
  have hstart := (g.record k hk).1
  have hle : s.length k ≤ s'.length k := by
    unfold length
    omega
  rcases Nat.lt_or_ge (s.length k) (s'.length k) with hlt | hge
  · have hgoing := h'.not_isFinished (Nat.lt_of_lt_of_le hk g.passes) hlt
    rw [g.machineAt h hk (Nat.le_refl _), hf] at hgoing
    cases hgoing
  · exact Nat.le_antisymm hge hle

/-! ## The history -/

/-- A pass as a reaction. -/
def reactionAt (s : Session) (k : Nat) : Reaction :=
  ⟨(s.record k).pass.number, (s.record k).pass.changed,
    (s.machineAt k (s.length k)).result.getD .nothing, (s.record k).start, s.length k⟩

/-- A finished pass stays the reaction that it was. -/
theorem Grows.reactionAt (h : s.Sound) (h' : s'.Sound) (g : Grows s s') {k : Nat}
    (hk : k < s.passes.size) (hf : (s.machineAt k (s.length k)).isFinished = true) :
    s'.reactionAt k = s.reactionAt k := by
  unfold Session.reactionAt
  rw [(g.record k hk).1, (g.record k hk).2, g.length_eq h h' hk hf,
    g.machineAt h hk (Nat.le_refl _)]

/-- The passes after the first are finished, and the history has each of them. -/
structure Chronicled (s : Session) : Prop where
  size : s.history.size = s.newest
  finished : ∀ k, 0 < k → k ≤ s.newest → (s.machineAt k (s.length k)).isFinished = true
  entries : ∀ k < s.newest, s.history[k]? = some (s.reactionAt (k + 1))

/-- Without a new pass the history stays right. -/
theorem Chronicled.grows (c : s.Chronicled) (h : s.Sound) (h' : s'.Sound) (g : Grows s s')
    (hsize : s'.passes.size = s.passes.size) (hh : s'.history = s.history) : s'.Chronicled := by
  have hnewest : s'.newest = s.newest := by
    unfold newest
    rw [hsize]
  have hlt : ∀ k ≤ s.newest, k < s.passes.size := fun k hk => Nat.lt_of_le_of_lt hk h.newest_lt
  refine ⟨by rw [hh, hnewest, c.size], fun k hk hle => ?_, fun k hk => ?_⟩
  · rw [hnewest] at hle
    have hf := c.finished k hk hle
    rw [g.length_eq h h' (hlt k hle) hf, g.machineAt h (hlt k hle) (Nat.le_refl _)]
    exact hf
  · rw [hnewest] at hk
    rw [hh, c.entries k hk,
      g.reactionAt h h' (hlt _ hk) (c.finished (k + 1) (Nat.succ_pos k) hk)]

/-- Running the newest pass changes neither the history nor what is pending. -/
theorem Sound.evaluate_history (h : s.Sound) (hb : s.Begun ∨ s.AtEnd) :
    s.evaluate.2.history = s.history ∧ s.evaluate.2.pending = s.pending := by
  have hrun : ∀ fuel {s : Session}, s.Sound → s.AtEnd →
      (Session.runOut fuel s).history = s.history ∧
        (Session.runOut fuel s).pending = s.pending := by
    intro fuel
    induction fuel with
    | zero => exact fun _ _ => ⟨rfl, rfl⟩
    | succ fuel ih =>
      intro s h he
      unfold Session.runOut
      obtain ⟨-, hs⟩ | ⟨step, m, streams, hm, hs⟩ := h.step_atEnd he
      · rw [hs]
        exact ⟨rfl, rfl⟩
      · rw [hs]
        obtain ⟨h', he'⟩ := h.stepped he hm
        obtain ⟨-, -, -, -, -, hhist, hpend, -⟩ := s.stepped_fields step m streams
        exact ⟨(ih h' he').1.trans hhist, (ih h' he').2.trans hpend⟩
  rw [(h.evaluate_eq hb).1]
  exact hrun _ h.atEnd.1 h.atEnd.2

/-- Only reactions and restarts change the history. -/
theorem Host.respond_history (h : s.Host) {command : Command} (hc : command.beginsPass = false) :
    (s.respond command).2.history = s.history := by
  have hmove : ∀ index, (s.moveTo index).history = s.history := by
    intro index
    rw [h.sound.moveTo]
    rfl
  cases command with
  | step =>
    show s.step.2.history = s.history
    obtain ⟨-, hs⟩ | ⟨-, -, hs⟩ | ⟨-, step, m, streams, -, hs⟩ := h.step_cases
    · rw [hs]
      exact hmove _
    · rw [hs]
    · rw [hs]
      exact (s.stepped_fields step m streams).2.2.2.2.2.1
  | moveTo index => exact hmove index
  | moveBack count => exact hmove _
  | evaluate => exact (h.sound.evaluate_history (.inl h.begun)).1
  | react => cases hc
  | restart => cases hc
  | _ => rfl

/-- A run to the end of a pass has the machine of its end, with the result. -/
theorem RunOut.reaction_eq {result : Value} (h : RunOut s s')
    (hr : result = s'.result.getD .nothing) : s'.reaction result = s'.reactionAt s'.newest := by
  have hres := h.sound.result
  have hf := h.finished
  rw [h.sound.atEnd_machine h.atEnd] at hf
  dsimp only at hres
  rw [hf, if_pos rfl] at hres
  unfold Session.reaction Session.reactionAt
  rw [hr, hres, length, h.sound.stop_newest]
  rfl

theorem Host.followed_history (h : s.Host) : s.followed.history = s.history :=
  (h.sound.evaluate_history (.inl h.begun)).1

/-- A reaction is one pass more, which is finished. -/
theorem Host.react_newest (h : s.Host) : s.react.2.newest = s.newest + 1 ∧
    (s.react.2.machineAt s.react.2.newest (s.react.2.length s.react.2.newest)).isFinished = true := by
  have hrun := h.sound.evaluate (.inl h.begun)
  obtain ⟨hsound, he⟩ := h.sound.followed h.begun
  have hrun' := hsound.evaluate (.inr he)
  have hsize : s.followed.evaluate.2.passes.size = s.passes.size + 1 := by
    rw [hrun'.size, show s.followed.passes.size = _ from s.evaluate.2.beginPass_size _, hrun.size]
  rw [react_eq]
  generalize s.followed.evaluate = last at hrun' hsize
  have hf := hrun'.finished
  rw [hrun'.sound.atEnd_machine hrun'.atEnd] at hf
  refine ⟨?_, hf⟩
  have hpos := h.sound.nonempty
  show last.2.passes.size - 1 = s.newest + 1
  unfold newest
  omega

/-- A reaction adds its pass to the history, and tells the subscriber. -/
theorem Host.react_history (h : s.Host) :
    s.react.2.history = s.history.push (s.react.2.reactionAt s.react.2.newest) ∧
      s.react.2.notices =
        s.notices.map fun unread => unread ++ [(s.react.2.reactionAt s.react.2.newest).notice] := by
  obtain ⟨hsound, he⟩ := h.sound.followed h.begun
  have hrun := hsound.evaluate (.inr he)
  have hresult : s.followed.evaluate.1 = s.followed.evaluate.2.result.getD .nothing := by
    rw [(hsound.evaluate_eq (.inr he)).1, (hsound.evaluate_eq (.inr he)).2]
  have hreaction := hrun.reaction_eq hresult
  have hhistory : s.followed.evaluate.2.history = s.history :=
    (hsound.evaluate_history (.inr he)).1.trans h.followed_history
  have hnotices : s.followed.evaluate.2.notices = s.notices :=
    (hsound.evaluate_notices (.inr he)).trans (h.sound.evaluate_notices (.inl h.begun))
  rw [react_eq, hreaction, ← hhistory, ← hnotices]
  generalize s.followed.evaluate = last
  exact ⟨rfl, rfl⟩

theorem Host.react_chronicled (h : s.Host) (c : s.Chronicled) : s.react.2.Chronicled := by
  have hrun := h.sound.evaluate (.inl h.begun)
  have hlast := c.grows h.sound hrun.sound (h.sound.grows_evaluate (.inl h.begun)) hrun.size
    (h.sound.evaluate_history (.inl h.begun)).1
  have hnewest : s.evaluate.2.newest = s.newest := by
    unfold newest
    rw [hrun.size]
  have hreact : s.react.2.Sound := (h.sound.react h.begun).1
  have g : Grows s.evaluate.2 s.react.2 := h.grows_followed.trans h.followed_grows
  obtain ⟨hnext, hfinished⟩ := h.react_newest
  have hhist := h.react_history.1
  have hlt : ∀ k ≤ s.newest, k < s.evaluate.2.passes.size := fun k hk =>
    Nat.lt_of_le_of_lt (hnewest ▸ hk) hrun.sound.newest_lt
  rw [hnext] at hhist hfinished
  refine ⟨by rw [hhist, hnext, Array.size_push, c.size], fun k hk hle => ?_, fun k hk => ?_⟩
  · rw [hnext] at hle
    rcases Nat.lt_or_ge s.newest k with hgt | hge
    · obtain rfl : k = s.newest + 1 := Nat.le_antisymm hle hgt
      exact hfinished
    · have hf := hlast.finished k hk (hnewest ▸ hge)
      rw [g.length_eq hrun.sound hreact (hlt k hge) hf,
        g.machineAt hrun.sound (hlt k hge) (Nat.le_refl _)]
      exact hf
  · rw [hnext] at hk
    rcases Nat.lt_succ_iff_lt_or_eq.1 hk with hk | rfl
    · have hf := hlast.finished (k + 1) (Nat.succ_pos k) (hnewest ▸ hk)
      have hentry := hlast.entries k (hnewest ▸ hk)
      rw [(h.sound.evaluate_history (.inl h.begun)).1] at hentry
      have hsize : k < s.history.size := by rwa [c.size]
      rw [hhist, Array.getElem?_push_lt hsize, ← Array.getElem?_eq_getElem hsize, hentry,
        g.reactionAt hrun.sound hreact (hlt _ hk) hf]
    · rw [hhist, ← c.size, Array.getElem?_push_size, c.size]

theorem chronicled_renewed (s : Session) : s.renewed.Chronicled :=
  ⟨rfl, fun _ hk hle => absurd hle (Nat.not_le_of_gt hk), fun _ hk => absurd hk (Nat.not_lt_zero _)⟩

theorem Host.respond_chronicled (h : s.Host) (c : s.Chronicled) (command : Command) :
    (s.respond command).2.Chronicled := by
  cases hb : command.beginsPass with
  | true =>
    cases command with
    | react => exact h.react_chronicled c
    | restart =>
      have hrun := h.renewed.sound.evaluate (.inl h.renewed.begun)
      exact (chronicled_renewed s).grows h.renewed.sound hrun.sound
        (h.renewed.sound.grows_evaluate (.inl h.renewed.begun)) hrun.size
        (h.renewed.sound.evaluate_history (.inl h.renewed.begun)).1
    | _ => cases hb
  | false =>
    have hne : command ≠ .restart := by
      rintro rfl
      cases hb
    refine c.grows h.sound (h.respond command).sound (h.grows_respond hne) ?_ (h.respond_history hb)
    have h1 := h.sound.nonempty
    have h2 := (h.respond command).sound.nonempty
    have hnewest := h.respond_newest hb
    unfold newest at hnewest
    omega

theorem Host.after_chronicled (h : s.Host) (c : s.Chronicled) (commands : List Command) :
    (s.after commands).Chronicled := by
  induction commands generalizing s with
  | nil => exact c
  | cons command rest ih => exact ih (h.respond command) (h.respond_chronicled c command)

/-- From the start of a program, whatever the commands. -/
theorem chronicled_after {d : Draft} {root : NodeId} {t : Tree} {config : Config}
    (ht : d.finish root = .ok t) (hs : Session.start t config = .ok s) (commands : List Command) :
    (s.after commands).Chronicled :=
  (host_start ht hs).after_chronicled (start_renewed hs ▸ chronicled_renewed s) commands

/-! ## The log is partitioned into passes -/

/-- Passes, log, history, kept machines, cursor and result agree. -/
structure Partitioned (s : Session) : Prop where
  nonempty : 0 < s.passes.size
  number : ∀ k < s.passes.size, (s.record k).pass.number = k
  first : (s.record 0).start = 0
  later : ∀ k, k + 1 < s.passes.size →
    (s.record k).start < (s.record (k + 1)).start ∧ (s.record (k + 1)).start < s.log.size
  /-- The steps of a pass end where those of the next one begin, or with the log. -/
  segments : ∀ k < s.passes.size, (s.record k).start + s.length k =
    if k + 1 < s.passes.size then (s.record (k + 1)).start else s.log.size
  /-- A pass begins with the machine of the program, which takes the steps that are logged. -/
  steps : ∀ k < s.passes.size, s.machineAt k 0 = Machine.start s.program ∧
    ∀ i < s.length k, ∃ step, s.log[(s.record k).start + i]? = some step ∧
      (s.machineAt k i).step (s.world k) = some (step, s.machineAt k (i + 1), s.streams)
  finished : ∀ k < s.newest, (s.machineAt k (s.length k)).isFinished = true
  history : s.history.size = s.newest ∧ ∀ k < s.newest, ∃ r, s.history[k]? = some r ∧
    r.pass = k + 1 ∧ r.start = (s.record (k + 1)).start ∧ r.steps = s.length (k + 1)
  snapshots : ∀ k < s.passes.size,
    let kept := (s.record k).snapshots
    kept.size = s.length k / s.program.config.snapshotInterval + 1 ∧
      ∀ j < kept.size, kept[j]? = some (s.machineAt k (j * s.program.config.snapshotInterval))
  cursor : s.cursor < s.passes.size ∧ s.machine.index ≤ s.length s.cursor ∧
    s.machine = s.machineAt s.cursor s.machine.index
  result : s.result.isSome = true ↔ (s.machineAt s.newest (s.length s.newest)).isFinished = true

theorem Host.partitioned (h : s.Host) (c : s.Chronicled) : s.Partitioned where
  nonempty := h.sound.nonempty
  number := fun k hk => (h.sound.passes k hk).number
  first := h.sound.first
  later := fun k hk => by
    have hnewest : k < s.newest := by
      unfold newest
      omega
    refine ⟨h.sound.start_lt hnewest, ?_⟩
    rcases Nat.lt_or_ge (k + 1) s.newest with hlt | hge
    · have h1 := h.sound.start_lt hlt
      obtain ⟨h2, h3⟩ := h.sound.start_le_size (show k + 1 + 1 < s.passes.size by
        unfold newest at hlt
        omega)
      omega
    · obtain heq : k + 1 = s.newest := Nat.le_antisymm hnewest hge
      rw [heq]
      exact h.begun.resolve_left (by omega)
  segments := fun k hk => Nat.add_sub_of_le (h.sound.passes k hk).start_le
  steps := fun k hk => ⟨rfl, (h.sound.passes k hk).retraces⟩
  finished := fun k hk => (h.sound.passes k (Nat.lt_trans hk h.sound.newest_lt)).finished hk
  history := by
    refine ⟨c.size, fun k hk => ⟨_, c.entries k hk, ?_, rfl, rfl⟩⟩
    exact (h.sound.passes (k + 1) (Nat.lt_of_le_of_lt hk h.sound.newest_lt)).number
  snapshots := fun k hk => by
    obtain ⟨hsize, hkept⟩ := (h.sound.passes k hk).snapshots
    refine ⟨hsize, fun j hj => hkept j ?_⟩
    rw [hsize] at hj
    exact Nat.le_of_lt_succ hj
  cursor := ⟨h.sound.cursor, h.sound.index, h.sound.machine⟩
  result := by
    rw [h.sound.result]
    dsimp only
    split <;> simp [*]

/-- The machine of a pass is the one that the run had when it took the steps. -/
theorem Recorded.machineAt? {sessions : List Session} (hr : Recorded sessions s) (h : s.Sound)
    {k i : Nat} (hk : k < s.passes.size) (hi : i ≤ s.length k) (hfirst : k = 0 ∨ 0 < i) :
    (Course.mk sessions s).machineAt? ((s.record k).start + i) = some (s.machineAt k i) := by
  have hstop := h.start_le_size hk
  have hto : s.passTo ((s.record k).start + i) = k := by
    refine passTo_unique h hk (fun j h1 h2 => ?_) ?_
    · have h3 := h.stop_le h2 h1
      unfold length at hi
      omega
    · omega
  rw [Course.machineAt?, hr.first _ (by unfold length at hi; omega), machineOf, hto,
    Nat.add_sub_cancel_left]

/-- The log is partitioned into passes, after any commands: the machines whose steps it has are
those of the run, and passes, history, kept machines, cursor and result agree with it. -/
theorem log_partitioned {d : Draft} {root : NodeId} {t : Tree} {config : Config} {s : Session}
    (ht : d.finish root = .ok t) (hs : Session.start t config = .ok s) (commands : List Command) :
    let now := s.after commands
    now.Partitioned ∧ ∀ k < now.passes.size, ∀ i ≤ now.length k, k = 0 ∨ 0 < i →
      ((Course.start s).run commands).machineAt? ((now.record k).start + i) =
        some (now.machineAt k i) := by
  intro now
  have hnow : now.Host := (host_start ht hs).after commands
  have hchron : now.Chronicled := chronicled_after ht hs commands
  have hrec := recorded_after ht hs commands
  exact ⟨hnow.partitioned hchron, fun k hk i hi hfirst => hrec.machineAt? hnow.sound hk hi hfirst⟩

/-- Two passes of the clock's program, with the cursor in the first one. -/
theorem log_partitioned_clock : clockTree.edit.finish ⟨3⟩ = .ok clockTree ∧
    ∃ s, Session.start clockTree .default = .ok s ∧
      let now := s.after [.evaluate, .tick 40, .react, .moveTo 3]
      now.Partitioned ∧ now.newest = 1 ∧ now.cursor = 0 :=
  ⟨finish_clock, _, start_clock,
    (log_partitioned finish_clock start_clock [.evaluate, .tick 40, .react, .moveTo 3]).1,
    by decide +kernel, by decide +kernel⟩

end ReactiveLang.Session
