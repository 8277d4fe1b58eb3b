import ReactiveLang.Proofs.Eval.Arrivals
import ReactiveLang.Proofs.Session.Partition
import ReactiveLang.Proofs.Session.Turns

/-!
# Every change is in one pass

A tick adds values to streams. A stream that has got one is pending until the next pass begins,
which is told of it and is the first that may read the value.

* `Accounted`: what is pending, and what each pass was told, are the streams with values for that
  pass. Turns, ticks and new beginnings keep it (`kept_accounted`).
* `Ticked`: a host's tick has added a value while the pass before was the newest.
  `Host.arrived_iff` says that these are all the values there are.
* `changes_accounted`: both together, with what the host and the program see of them.
-/

namespace ReactiveLang

namespace Session

variable {s s' : Session}

/-! ## What passes are told -/

/-- A pass was told of the streams that have a value for it, and of the calls that made them. -/
structure AccountedPass (s : Session) (k : Nat) : Prop where
  changed : ∀ id, id ∈ (s.record k).pass.changed ↔ ∃ i, s.streams.Arrived id i k
  ascending : (s.record k).pass.changed.Pairwise (· < ·)
  creators : ∀ creator, creator ∈ (s.record k).pass.changedCreators ↔
    ∃ id ∈ (s.record k).pass.changed, ∃ x, s.streams.find? id = some x ∧ x.creator = creator
  ascendingCreators : (s.record k).pass.changedCreators.Pairwise (· < ·)

/-- Each value that a tick has added is for a pass that was told of it, or for the next one. -/
structure Accounted (s : Session) : Prop where
  ordered : s.streams.Ordered (s.newest + 1)
  positive : ∀ id i pass, s.streams.Arrived id i pass → 0 < pass
  pending : ∀ id, id ∈ s.pending ↔ ∃ i, s.streams.Arrived id i (s.newest + 1)
  ascending : s.pending.Pairwise (· < ·)
  passes : ∀ k, 0 < k → k ≤ s.newest → s.AccountedPass k

/-- Streams keep their creators. -/
theorem Grows.creator_iff (g : Grows s s') {id : StreamId} {i pass : Nat}
    (ha : s.streams.Arrived id i pass) (creator : NodeId) :
    (∃ y, s'.streams.find? id = some y ∧ y.creator = creator) ↔
      ∃ x, s.streams.find? id = some x ∧ x.creator = creator := by
  obtain ⟨-, x, -, hx, -⟩ := ha
  obtain ⟨y, hy, -, -, hc, -⟩ := (g.streams 0 (Nat.zero_le _)).places id.index x hx
  have hy' : s'.streams.find? id = some y := hy
  rw [hx, hy']
  simp [hc]

/-- A pass that is there stays accounted for, if no value is new for it. -/
theorem AccountedPass.grows {k : Nat} (a : s.AccountedPass k) (g : Grows s s')
    (hk : k < s.passes.size)
    (harrived : ∀ id i, s'.streams.Arrived id i k ↔ s.streams.Arrived id i k) :
    s'.AccountedPass k := by
  have hpass := (g.record k hk).2
  refine ⟨fun id => ?_, by rw [hpass]; exact a.ascending, fun creator => ?_,
    by rw [hpass]; exact a.ascendingCreators⟩
  · rw [hpass, a.changed]
    simp only [harrived]
  · rw [hpass, a.creators]
    refine exists_congr fun id => and_congr_right fun hid => ?_
    obtain ⟨i, hi⟩ := (a.changed id).1 hid
    exact (g.creator_iff hi creator).symm

/-- Where no pass is new and no value has come, everything stays accounted for. -/
theorem Accounted.grows (a : s.Accounted) (h : s.Sound) (g : Grows s s')
    (hsize : s'.passes.size = s.passes.size) (hpending : s'.pending = s.pending)
    (hordered : s'.streams.Ordered (s.newest + 1))
    (harrived : ∀ id i pass, s'.streams.Arrived id i pass ↔ s.streams.Arrived id i pass) :
    s'.Accounted := by
  have hnewest : s'.newest = s.newest := by
    unfold newest
    rw [hsize]
  refine ⟨by rw [hnewest]; exact hordered, fun id i pass ha => ?_, fun id => ?_,
    by rw [hpending]; exact a.ascending, fun k hk hle => ?_⟩
  · exact a.positive id i pass ((harrived id i pass).1 ha)
  · rw [hpending, a.pending, hnewest]
    simp only [harrived]
  · rw [hnewest] at hle
    exact (a.passes k hk hle).grows g (Nat.lt_of_le_of_lt hle h.newest_lt) fun id i =>
      harrived id i k

/-- A pass that begins is told of what was pending. -/
theorem Accounted.began (a : s.Accounted) (h : s.Sound) :
    (s.beginPass s.nextPass).Accounted := by
  have g := h.grows_beginPass s.nextPass
  have hsize : s.passes.size = s.newest + 1 := by
    have := h.nonempty
    unfold newest
    omega
  have hnewest : (s.beginPass s.nextPass).newest = s.newest + 1 := by
    rw [s.beginPass_newest, hsize]
  have hstreams : (s.beginPass s.nextPass).streams = s.streams := rfl
  refine ⟨?_, a.positive, fun id => ?_, .nil, fun k hk hle => ?_⟩
  · rw [hnewest, hstreams]
    exact a.ordered.mono (Nat.le_succ _)
  · rw [hnewest, hstreams]
    refine ⟨fun hid => absurd hid (by simp [beginPass]), fun ⟨i, hi⟩ => ?_⟩
    have := hi.le a.ordered
    omega
  · rw [hnewest] at hle
    rcases Nat.lt_succ_iff_lt_or_eq.1 (Nat.lt_succ_of_le hle) with hlt | rfl
    · exact (a.passes k hk (Nat.le_of_lt_succ hlt)).grows g (by omega) fun _ _ => Iff.rfl
    · have hrec := s.beginPass_record s.nextPass
      rw [hsize] at hrec
      refine ⟨fun id => ?_, ?_, fun creator => ?_, ?_⟩
      · rw [hrec]
        exact a.pending id
      · rw [hrec]
        exact a.ascending
      · rw [hrec]
        simp [nextPass, Ascending.mem_ofList, beginPass]
      · rw [hrec]
        exact Ascending.pairwise_ofList NodeId.lt_trans NodeId.lt_total _

/-- A tick makes the streams pending to which it adds a value. -/
theorem Accounted.tick (a : s.Accounted) (h : s.Sound) (now : Float) :
    (s.tick now).2.Accounted := by
  have g := h.grows_tick now
  have hnumber : s.passNumber = s.newest := (h.passes _ h.newest_lt).number
  have hstreams : (s.tick now).2.streams = (s.streams.tick now (s.newest + 1)).2 := by
    rw [← hnumber]
    rfl
  have hpending : (s.tick now).2.pending =
      Ascending.union s.pending (s.streams.tick now (s.newest + 1)).1 := by
    rw [← hnumber]
    rfl
  have hnewest : (s.tick now).2.newest = s.newest := rfl
  have harrived := Streams.arrived_tick a.ordered now (s.newest + 1)
  refine ⟨?_, fun id i pass ha => ?_, fun id => ?_, ?_, fun k hk hle => ?_⟩
  · rw [hstreams, hnewest]
    exact a.ordered.tick (Nat.le_refl _) now
  · rw [hstreams, harrived] at ha
    rcases ha with ha | ⟨rfl, -⟩
    · exact a.positive id i pass ha
    · exact Nat.succ_pos _
  · rw [hpending, Ascending.mem_union, hstreams, hnewest, a.pending,
      Streams.mem_tick h.regular now (s.newest + 1)]
    simp only [harrived, true_and, exists_or]
  · rw [hpending]
    exact Ascending.pairwise_union StreamId.lt_trans StreamId.lt_total a.ascending _
  · refine (a.passes k hk hle).grows g (Nat.lt_of_le_of_lt hle h.newest_lt) fun id i => ?_
    have hne : k ≠ s.newest + 1 := by
      rw [hnewest] at hle
      omega
    rw [hstreams, harrived]
    simp [hne]

theorem accounted_ofProgram (p : Program) (notices : Option (List Notice)) :
    ({ ofProgram p with notices } : Session).Accounted :=
  ⟨Streams.ordered_empty _, fun _ _ _ ha => absurd ha Streams.not_arrived_empty,
    fun _ => ⟨nofun, fun ⟨_, ha⟩ => absurd ha Streams.not_arrived_empty⟩, .nil,
    fun _ hk hle => absurd hle (Nat.not_le_of_gt hk)⟩

/-- A step at the end of the log adds no value. -/
theorem stepped_arrived {step : Step} {m : Machine} {streams : Streams}
    (hs : s.machine.step ⟨s.program, (s.record s.cursor).pass, s.streams, false⟩ =
      some (step, m, streams)) (id : StreamId) (i pass : Nat) :
    (s.stepped step m streams).streams.Arrived id i pass ↔ s.streams.Arrived id i pass := by
  rw [(s.stepped_fields step m streams).2.1]
  exact Machine.step_arrived hs

theorem kept_accounted : Kept Accounted where
  turn := by
    intro s s' h a t
    have g := t.grows h
    cases t with
    | placed => exact a.grows h g rfl rfl a.ordered fun _ _ _ => Iff.rfl
    | @stepped step m streams atEnd taken =>
      obtain ⟨-, hstreams, -, -, -, -, hpending, -⟩ := s.stepped_fields step m streams
      refine a.grows h g (s.stepped_size step m streams) hpending ?_ (stepped_arrived taken)
      have hnumber : (s.record s.cursor).pass.number = s.newest := by
        rw [(h.passes _ h.cursor).number, atEnd.cursor]
      rw [hstreams]
      exact Machine.step_ordered taken a.ordered (hnumber ▸ Nat.le_succ _)
    | began => exact a.began h
    | told => exact a.grows h g rfl rfl a.ordered fun _ _ _ => Iff.rfl
  tick := fun h a now => a.tick h now
  renewed := fun _ _ => accounted_ofProgram _ _

/-! ## What ticks have done -/

/-- A tick of the host has given the stream its `i`th value, while the pass before `pass` was the
newest one and since the program was last begun. -/
def Ticked (s : Session) (commands : List Command) (id : StreamId) (i pass : Nat) : Prop :=
  ∃ before time later, commands = before ++ .tick time :: later ∧ .restart ∉ later ∧
    (s.after before).newest + 1 = pass ∧
    (s.after before).streams.Appends ((s.after before).tick time).2.streams id i

theorem not_ticked_nil {id : StreamId} {i pass : Nat} : ¬ s.Ticked [] id i pass := by
  rintro ⟨before, time, later, h, -⟩
  simp at h

/-- The first command is the tick, or a later one is. -/
theorem ticked_cons (s : Session) (command : Command) (rest : List Command) (id : StreamId)
    (i pass : Nat) : s.Ticked (command :: rest) id i pass ↔
      (∃ time, command = .tick time ∧ .restart ∉ rest ∧ s.newest + 1 = pass ∧
        s.streams.Appends (s.tick time).2.streams id i) ∨
      (s.respond command).2.Ticked rest id i pass := by
  constructor
  · rintro ⟨before, time, later, h, hlater, hnewest, happends⟩
    cases before with
    | nil =>
      cases h
      exact .inl ⟨time, rfl, hlater, hnewest, happends⟩
    | cons first before =>
      cases h
      exact .inr ⟨before, time, later, rfl, hlater, hnewest, happends⟩
  · rintro (⟨time, rfl, hrest, hnewest, happends⟩ |
      ⟨before, time, later, rfl, hlater, hnewest, happends⟩)
    · exact ⟨[], time, rest, rfl, hrest, hnewest, happends⟩
    · exact ⟨command :: before, time, later, rfl, hlater, hnewest, happends⟩

theorem Turns.arrived (t : Turns s s') (id : StreamId) (i pass : Nat) :
    s'.streams.Arrived id i pass ↔ s.streams.Arrived id i pass := by
  induction t with
  | refl => exact Iff.rfl
  | tail _ turn ih =>
    rw [← ih]
    cases turn with
    | stepped _ taken => exact stepped_arrived taken id i pass
    | _ => exact Iff.rfl

/-- Only ticks add values, and a restart forgets them. -/
theorem Host.respond_arrived (h : s.Host) (a : s.Accounted) (command : Command) (id : StreamId)
    (i pass : Nat) : (s.respond command).2.streams.Arrived id i pass ↔
      (command ≠ .restart ∧ s.streams.Arrived id i pass) ∨
        ∃ time, command = .tick time ∧ s.newest + 1 = pass ∧
          s.streams.Appends (s.tick time).2.streams id i := by
  cases ht : command.isTick with
  | true =>
    cases command with
    | tick now =>
      have hnumber : s.passNumber = s.newest := (h.sound.passes _ h.sound.newest_lt).number
      have hstreams : (s.tick now).2.streams = (s.streams.tick now (s.newest + 1)).2 := by
        rw [← hnumber]
        rfl
      show (s.tick now).2.streams.Arrived id i pass ↔ _
      rw [hstreams, Streams.arrived_tick a.ordered now (s.newest + 1)]
      simp [hstreams, eq_comm]
    | _ => cases ht
  | false =>
    have hnone : ¬ ∃ time, command = .tick time ∧ s.newest + 1 = pass ∧
        s.streams.Appends (s.tick time).2.streams id i := by
      rintro ⟨time, rfl, -⟩
      cases ht
    rw [or_iff_left hnone]
    by_cases hr : command = .restart
    · subst hr
      have hrun := Turns.arrived h.turns_renewed id i pass
      exact ⟨fun ha => absurd (hrun.1 ha) Streams.not_arrived_empty, fun hc => absurd rfl hc.1⟩
    · rw [Turns.arrived (h.turns ht hr)]
      simp [hr]

/-- The values that streams have after their first are those that the ticks have added. -/
theorem Host.arrived_iff (h : s.Host) (a : s.Accounted) (commands : List Command) (id : StreamId)
    (i pass : Nat) : (s.after commands).streams.Arrived id i pass ↔
      (.restart ∉ commands ∧ s.streams.Arrived id i pass) ∨ s.Ticked commands id i pass := by
  induction commands generalizing s with
  | nil => simp [Session.after, not_ticked_nil]
  | cons command rest ih =>
    show ((s.respond command).2.after rest).streams.Arrived id i pass ↔ _
    rw [ih (h.respond command) (kept_accounted.respond h a command), h.respond_arrived a,
      ticked_cons]
    constructor
    · rintro (⟨hrest, ⟨hne, ha⟩ | ⟨time, rfl, htick⟩⟩ | hticked)
      · exact .inl ⟨fun hm => (List.mem_cons.1 hm).elim (fun he => hne he.symm) hrest, ha⟩
      · exact .inr (.inl ⟨time, rfl, hrest, htick⟩)
      · exact .inr (.inr hticked)
    · rintro (⟨hnone, ha⟩ | ⟨time, rfl, hrest, htick⟩ | hticked)
      · exact .inl ⟨fun hm => hnone (List.mem_cons_of_mem _ hm),
          .inl ⟨fun he => hnone (he ▸ List.mem_cons_self), ha⟩⟩
      · exact .inl ⟨hrest, .inr ⟨time, rfl, htick⟩⟩
      · exact .inr hticked

/-! ## What is seen of the changes -/

/-- What a `Changed` node gives for a stream says whether its pass was told of the stream. -/
theorem outcome_changed {w : World} {node stream : NodeId}
    (hn : w.tree.construct node = .changed stream) (es : Evaluations) (current : EvaluationId)
    (id : StreamId) :
    w.outcome es current node [.stream id] =
      .ok (.value (.boolean (w.pass.changed.contains id))) := by
  unfold World.outcome
  rw [hn]
  rfl

/-- A reaction is told to the host with what was pending before. -/
theorem Host.react_changed (h : s.Host) :
    ((s.react.2.record s.react.2.newest).pass.changed = s.pending) := by
  have hrun := h.sound.evaluate (.inl h.begun)
  have hnewest : s.react.2.newest = s.evaluate.2.passes.size := by
    have := h.sound.nonempty
    rw [h.react_newest.1, hrun.size]
    unfold newest
    omega
  have hsize : s.followed.passes.size = s.evaluate.2.passes.size + 1 :=
    s.evaluate.2.beginPass_size _
  rw [hnewest, (h.followed_grows.record _ (by omega)).2]
  show ((s.evaluate.2.beginPass s.evaluate.2.nextPass).record _).pass.changed = _
  rw [s.evaluate.2.beginPass_record]
  exact (h.sound.evaluate_history (.inl h.begun)).2

/-- The history and the subscriber are told of the pass and of what was pending. -/
theorem Host.react_told (h : s.Host) : ∃ r, s.react.2.history = s.history.push r ∧
    r.pass = s.newest + 1 ∧ r.changed = s.pending ∧
    s.react.2.notices = s.notices.map fun unread => unread ++ [r.notice] := by
  obtain ⟨hhistory, hnotices⟩ := h.react_history
  have hchanged := h.react_changed
  have hnewest := h.react_newest.1
  have hsound := (h.sound.react h.begun).1
  generalize s.react.2 = last at hhistory hnotices hchanged hnewest hsound ⊢
  refine ⟨_, hhistory, ?_, hchanged, hnotices⟩
  rw [← hnewest]
  exact (hsound.passes _ hsound.newest_lt).number

/-- No change is lost or told twice, after any commands. What the streams have got after their first
values is what ticks have added (1). A stream is pending if a tick has added a value to it since the
newest pass began (2), and each pass after the first was told of the streams to which ticks added
values since the pass before began, and of the calls that made them; so are the history and the
program (3). Such a value is for one pass, which is the first that reads it (4). The next reaction
is told with what is pending (5). -/
theorem changes_accounted {d : Draft} {root : NodeId} {t : Tree} {config : Config} {s : Session}
    (ht : d.finish root = .ok t) (hs : Session.start t config = .ok s) (commands : List Command) :
    let now := s.after commands
    (∀ id i pass, now.streams.Arrived id i pass ↔ s.Ticked commands id i pass) ∧
    ((∀ id, id ∈ now.pending ↔ ∃ i, s.Ticked commands id i (now.newest + 1)) ∧
      now.pending.Pairwise (· < ·)) ∧
    (∀ k, 0 < k → k ≤ now.newest →
      let pass := (now.record k).pass
      ((∀ id, id ∈ pass.changed ↔ ∃ i, s.Ticked commands id i k) ∧
        pass.changed.Pairwise (· < ·)) ∧
      ((∀ creator, creator ∈ pass.changedCreators ↔
          ∃ id ∈ pass.changed, ∃ x, now.streams.find? id = some x ∧ x.creator = creator) ∧
        pass.changedCreators.Pairwise (· < ·)) ∧
      (∃ r, now.history[k - 1]? = some r ∧ r.pass = k ∧ r.changed = pass.changed) ∧
      ∀ node stream, now.program.tree.construct node = .changed stream → ∀ es current id, ∃ b,
        (now.world k).outcome es current node [.stream id] = .ok (.value (.boolean b)) ∧
          (b = true ↔ ∃ i, s.Ticked commands id i k)) ∧
    (∀ id i pass, s.Ticked commands id i pass → 0 < pass ∧ pass ≤ now.newest + 1 ∧
      (∀ pass', s.Ticked commands id i pass' → pass' = pass) ∧
      ∃ x v, now.streams.find? id = some x ∧ x.values[i]? = some v ∧
        ∀ k, (x.visible k)[i]? = if pass ≤ k then some v.value else none) ∧
    ∃ r, now.react.2.history = now.history.push r ∧ r.pass = now.newest + 1 ∧
      r.changed = now.pending ∧
      now.react.2.notices = now.notices.map fun unread => unread ++ [r.notice] := by
  intro now
  have hstart := host_start ht hs
  have hofProgram : s = { ofProgram (Program.ofTree t config) with notices := none } :=
    (start_cases hs).2.2
  have hfirst : s.Accounted := by rw [hofProgram]; exact accounted_ofProgram _ _
  have hnow : now.Host := hstart.after commands
  have ha : now.Accounted := kept_accounted.after hstart hfirst commands
  have hchron : now.Chronicled := chronicled_after ht hs commands
  have harrived : ∀ id i pass, now.streams.Arrived id i pass ↔ s.Ticked commands id i pass := by
    intro id i pass
    have hnone : ¬ s.streams.Arrived id i pass := by
      rw [hofProgram]
      exact Streams.not_arrived_empty
    rw [hstart.arrived_iff hfirst]
    simp [hnone]
  refine ⟨harrived, ⟨fun id => ?_, ha.ascending⟩, fun k hk hle => ?_, fun id i pass hticked => ?_, ?_⟩
  · simp only [ha.pending, harrived]
  · have hpass := ha.passes k hk hle
    have hchanged : ∀ id, id ∈ (now.record k).pass.changed ↔ ∃ i, s.Ticked commands id i k := by
      intro id
      simp only [hpass.changed, harrived]
    refine ⟨⟨hchanged, hpass.ascending⟩, ⟨hpass.creators, hpass.ascendingCreators⟩, ?_, ?_⟩
    · obtain ⟨k, rfl⟩ := Nat.exists_eq_succ_of_ne_zero (Nat.ne_of_gt hk)
      refine ⟨_, hchron.entries k hle, ?_, rfl⟩
      exact (hnow.sound.passes _ (Nat.lt_of_le_of_lt hle hnow.sound.newest_lt)).number
    · intro node stream hn es current id
      refine ⟨_, outcome_changed (w := now.world k) hn es current id, ?_⟩
      rw [← hchanged]
      exact List.contains_iff_mem
  · have hi := (harrived id i pass).2 hticked
    refine ⟨ha.positive id i pass hi, hi.le ha.ordered, fun pass' hticked' => ?_, ?_⟩
    · exact hi.unique ((harrived id i pass').2 hticked')
    · obtain ⟨-, x, v, hx, hv, rfl⟩ := hi
      exact ⟨x, v, hx, hv, ha.ordered.visible_getElem? hx hv⟩
  · exact hnow.react_told

/-- The reaction after a tick of the clock was told of the clock. -/
theorem changes_accounted_clock : clockTree.edit.finish ⟨3⟩ = .ok clockTree ∧
    ∃ s, Session.start clockTree .default = .ok s ∧
      let commands := [.evaluate, .tick 40, .react]
      let now := s.after commands
      now.newest = 1 ∧ (now.record 1).pass.changed = [⟨0⟩] ∧
        ∃ i, s.Ticked commands ⟨0⟩ i 1 := by
  refine ⟨finish_clock, _, start_clock, by decide +kernel, by decide +kernel, ?_⟩
  obtain ⟨-, -, hpasses, -⟩ :=
    changes_accounted finish_clock start_clock [.evaluate, .tick 40, .react]
  obtain ⟨⟨hchanged, -⟩, -⟩ := hpasses 1 Nat.one_pos (by decide +kernel)
  exact (hchanged ⟨0⟩).1 (by decide +kernel)

end Session
end ReactiveLang
