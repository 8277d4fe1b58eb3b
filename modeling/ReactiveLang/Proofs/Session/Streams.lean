import ReactiveLang.Proofs.Eval.Creators
import ReactiveLang.Proofs.Session.Turns

/-!
# The streams of a run

From the start of a program or from a restart on, streams are made by steps and get values from
ticks, and nothing else happens to them.

* `Successive`: sessions that come one from another by turns and ticks. Those of a course do
  (`Successive.run`).
* `Lasting`: in each of them the streams are consistent, each later one prolongs the streams of the
  earlier ones, and a stream's first value is for the pass in which the stream was made.
* `streams_lasting`: so it is after any commands.
-/

namespace ReactiveLang

namespace Session

variable {s s' : Session} {sessions : List Session}

/-! ## What turns do to the streams -/

theorem Sound.passNumber_eq (h : s.Sound) : s.passNumber = s.newest :=
  (h.passes _ h.newest_lt).number

/-- A turn that takes no step leaves the streams. -/
theorem Turn.streams_cases (t : Turn s s') (h : s.Sound) :
    (s'.streams = s.streams ∧ s.passNumber ≤ s'.passNumber) ∨
      s'.passNumber = s.passNumber ∧ ∃ w step m, w.streams = s.streams ∧
        w.pass.number = s.passNumber ∧ s.machine.step w = some (step, m, s'.streams) := by
  rw [(t.sound h).passNumber_eq, h.passNumber_eq]
  cases t with
  | placed => exact .inl ⟨rfl, Nat.le_refl _⟩
  | @stepped step m streams atEnd taken =>
    refine .inr ⟨s.stepped_newest step m streams, _, step, m, rfl, ?_,
      (s.stepped_fields step m streams).2.1 ▸ taken⟩
    rw [(h.passes _ h.cursor).number, atEnd.cursor]
  | began =>
    refine .inl ⟨rfl, ?_⟩
    rw [s.beginPass_newest]
    exact Nat.sub_le _ _
  | told => exact .inl ⟨rfl, Nat.le_refl _⟩

theorem Turn.consistent (t : Turn s s') (h : s.Sound)
    (hc : s.streams.Consistent (s.passNumber + 1)) :
    s'.streams.Consistent (s'.passNumber + 1) := by
  obtain ⟨hstreams, hle⟩ | ⟨hnumber, w, step, m, hw, hpass, hs⟩ := t.streams_cases h
  · rw [hstreams]
    exact hc.mono (Nat.succ_le_succ hle)
  · rw [hnumber]
    exact Machine.step_consistent hs (hw ▸ hc) (hpass ▸ Nat.le_succ _)

theorem Turn.prolongs (t : Turn s s') (h : s.Sound) : s.streams.Prolongs s'.streams := by
  obtain ⟨hstreams, -⟩ | ⟨-, w, step, m, hw, -, hs⟩ := t.streams_cases h
  · rw [hstreams]
    exact s.streams.prolongs_refl
  · rw [← hw]
    exact Machine.step_prolongs hs

/-- A stream that a turn makes has one value, for the pass of the turn. -/
theorem Turn.made (t : Turn s s') (h : s.Sound) {id : StreamId} {x : Stream}
    (hx : s'.streams.find? id = some x) (hnew : s.streams.find? id = none) :
    x.values = #[⟨Clock.initial, s'.passNumber⟩] := by
  obtain ⟨hstreams, -⟩ | ⟨hnumber, w, step, m, hw, hpass, hs⟩ := t.streams_cases h
  · rw [hstreams, hnew] at hx
    cases hx
  · rw [hnumber, ← hpass]
    exact Machine.step_new hs hx (hw ▸ hnew)

/-! ## Sessions one after another -/

/-- Each session comes from the one before it by a turn or a tick; the first has no streams yet, and
the last is `now`. -/
inductive Successive : List Session → Session → Prop where
  | begun {s : Session} : s.Sound → s.streams = .empty → Successive [s] s
  | turn {sessions : List Session} {s s' : Session} : Successive sessions s → Turn s s' →
      Successive (sessions ++ [s']) s'
  | tick {sessions : List Session} {s : Session} (now : Float) : Successive sessions s →
      Successive (sessions ++ [(s.tick now).2]) (s.tick now).2

namespace Successive

theorem sound (hs : Successive sessions s) : s.Sound := by
  induction hs with
  | begun h _ => exact h
  | turn _ t ih => exact t.sound ih
  | tick now _ ih => exact ih.tick now

theorem forall_sound (hs : Successive sessions s) : ∀ p ∈ sessions, p.Sound := by
  induction hs with
  | begun h _ => exact List.forall_mem_singleton.2 h
  | turn hs t ih =>
    exact List.forall_mem_append.2 ⟨ih, List.forall_mem_singleton.2 (t.sound hs.sound)⟩
  | tick now hs ih =>
    exact List.forall_mem_append.2 ⟨ih, List.forall_mem_singleton.2 (hs.sound.tick now)⟩

theorem getLast? (hs : Successive sessions s) : sessions.getLast? = some s := by
  cases hs with
  | begun => rfl
  | turn => exact List.getLast?_concat
  | tick => exact List.getLast?_concat

theorem ranThrough (hs : Successive sessions s) (he : s.AtEnd) (fuel : Nat) :
    Successive (sessions ++ Session.ranThrough fuel s) (Session.runOut fuel s) := by
  induction fuel generalizing s sessions with
  | zero =>
    rw [Session.ranThrough, List.append_nil]
    exact hs
  | succ fuel ih =>
    unfold Session.ranThrough Session.runOut
    obtain ⟨-, hstep⟩ | ⟨step, m, streams, hm, hstep⟩ := hs.sound.step_atEnd he
    · rw [hstep]
      exact hs.turn (.refl s)
    · rw [hstep]
      have := ih (hs.turn (.stepped he hm)) (hs.sound.stepped he hm).2
      rwa [List.append_assoc] at this

theorem evaluatedThrough (hs : Successive sessions s) (hb : s.Begun ∨ s.AtEnd) :
    Successive (sessions ++ s.evaluatedThrough) s.evaluate.2 := by
  have h := hs.sound
  have hthrough : s.evaluatedThrough =
      s.atEnd :: Session.ranThrough (s.program.config.maxSteps + 2) s.atEnd := by
    unfold Session.evaluatedThrough
    rw [h.evaluate_start hb]
    rfl
  have hend : Successive (sessions ++ [s.atEnd]) s.atEnd :=
    hs.turn (.placed h.newest_lt (Nat.le_refl _))
  rw [hthrough, (h.evaluate_eq hb).1, ← List.singleton_append, ← List.append_assoc]
  exact hend.ranThrough h.atEnd.2 _

theorem reactedThrough (hs : Successive sessions s) (h : s.Host) :
    Successive (sessions ++ s.reactedThrough) s.react.2 := by
  have hrun := h.sound.evaluate (.inl h.begun)
  obtain ⟨-, he⟩ := h.sound.followed h.begun
  have hbegan : Turn s.evaluate.2 s.followed := .began hrun.atEnd hrun.finished
  have h1 := ((hs.evaluatedThrough (.inl h.begun)).turn hbegan).evaluatedThrough (.inr he)
  have h2 : Successive _ (s.followed.evaluate.2.announce
    (s.followed.evaluate.2.reaction s.followed.evaluate.1)) := h1.turn (.told _ _)
  unfold Session.reactedThrough
  rw [react_eq]
  simpa [List.append_assoc] using h2

/-- A command adds successive sessions, and a restart begins anew. -/
theorem next {c : Course} (hs : Successive c.sessions c.now) (h : c.now.Host)
    (command : Command) : Successive (c.next command).sessions (c.next command).now := by
  cases command with
  | step => exact hs.turn h.turn_step
  | moveTo index => exact hs.turn (h.turn_moveTo index)
  | moveBack count => exact hs.turn (h.turn_moveTo _)
  | evaluate => exact hs.evaluatedThrough (.inl h.begun)
  | tick now => exact hs.tick now
  | react => exact hs.reactedThrough h
  | restart =>
    exact (begun h.renewed.sound rfl).evaluatedThrough (.inl h.renewed.begun)
  | subscribe => exact hs.turn (.told _ _)
  | unsubscribe => exact hs.turn (.told _ _)
  | drain => exact hs.turn (.told _ _)

/-- The sessions of a course come one from another. -/
theorem run {c : Course} (hs : Successive c.sessions c.now) (h : c.now.Host)
    (commands : List Command) : Successive (c.run commands).sessions (c.run commands).now := by
  induction commands generalizing c with
  | nil => exact hs
  | cons command rest ih =>
    refine ih (hs.next h command) ?_
    have := h.respond command
    cases command <;> exact this

end Successive

/-! ## Streams of successive sessions -/

/-- The session has the stream. -/
def hasStream (s : Session) (id : StreamId) : Bool := (s.streams.find? id).isSome

/-- What is true of the streams of sessions one after another. -/
structure Lasting (sessions : List Session) : Prop where
  consistent : ∀ p ∈ sessions, p.streams.Consistent (p.passNumber + 1)
  prolongs : sessions.Pairwise fun p q => p.streams.Prolongs q.streams
  /-- The first value of a stream is for the pass in which the stream was made. -/
  made : ∀ p ∈ sessions, ∀ id x, p.streams.find? id = some x →
    ∃ first, sessions.find? (fun q => q.hasStream id) = some first ∧
      x.values[0]? = some ⟨Clock.initial, first.passNumber⟩

/-- One more session, in which new streams have one value. -/
theorem Lasting.next (hl : Lasting sessions) (hlast : sessions.getLast? = some s)
    (hc : s'.streams.Consistent (s'.passNumber + 1)) (hp : s.streams.Prolongs s'.streams)
    (hmade : ∀ id x, s'.streams.find? id = some x → s.streams.find? id = none →
      x.values = #[⟨Clock.initial, s'.passNumber⟩]) : Lasting (sessions ++ [s']) := by
  have hmem : s ∈ sessions := List.mem_of_getLast? hlast
  -- each session before is prolonged by the last one
  have hbefore : ∀ p ∈ sessions, p.streams.Prolongs s.streams := by
    obtain ⟨before, rfl⟩ := List.getLast?_eq_some_iff.1 hlast
    have hall := (List.pairwise_append.1 hl.prolongs).2.2
    exact List.forall_mem_append.2 ⟨fun p hpm => hall p hpm s (List.mem_singleton_self s),
      List.forall_mem_singleton.2 s.streams.prolongs_refl⟩
  refine ⟨List.forall_mem_append.2 ⟨hl.consistent, List.forall_mem_singleton.2 hc⟩, ?_, ?_⟩
  · refine List.pairwise_append.2 ⟨hl.prolongs, List.pairwise_singleton _ _, fun p hpm q hq => ?_⟩
    rw [List.mem_singleton.1 hq]
    exact (hbefore p hpm).trans hp
  · have hknown : ∀ {id x}, (∃ p ∈ sessions, p.streams.find? id = some x) →
        ∃ first, (sessions ++ [s']).find? (fun q => q.hasStream id) = some first ∧
          x.values[0]? = some ⟨Clock.initial, first.passNumber⟩ := by
      rintro id x ⟨p, hpm, hx⟩
      obtain ⟨first, hfirst, hv⟩ := hl.made p hpm id x hx
      exact ⟨first, by rw [List.find?_append, hfirst]; rfl, hv⟩
    intro p hpm id y hy
    rcases List.mem_append.1 hpm with hpm | hpm
    · exact hknown ⟨p, hpm, hy⟩
    · obtain rfl := List.mem_singleton.1 hpm
      cases hx : s.streams.find? id with
      | some x =>
        obtain ⟨first, hfirst, hv⟩ := hknown ⟨s, hmem, hx⟩
        obtain ⟨y', hy', -, -, hvalues⟩ := hp id x hx
        rw [hy] at hy'
        cases hy'
        refine ⟨first, hfirst, ?_⟩
        obtain ⟨rest, hrest⟩ := hvalues
        rw [← Array.getElem?_toList] at hv ⊢
        obtain ⟨hlt, -⟩ := List.getElem?_eq_some_iff.1 hv
        rw [← hrest, List.getElem?_append_left hlt, hv]
      | none =>
        have hnone : sessions.find? (fun q => q.hasStream id) = none := by
          refine List.find?_eq_none.2 fun q hq hhas => ?_
          have hsome := (hbefore q hq).isSome hhas
          rw [hx] at hsome
          cases hsome
        refine ⟨p, ?_, by rw [hmade id y hy hx]; rfl⟩
        rw [List.find?_append, hnone, Option.none_or, List.find?_singleton, hasStream, hy]
        rfl

theorem Successive.lasting (hs : Successive sessions s) : Lasting sessions := by
  induction hs with
  | @begun s h hempty =>
    refine ⟨fun p hp => ?_, List.pairwise_singleton _ _, fun p hp id x hx => ?_⟩
    · rw [List.mem_singleton.1 hp, hempty]
      exact Streams.consistent_empty _
    · rw [List.mem_singleton.1 hp, hempty] at hx
      simp [Streams.find?, Streams.empty] at hx
  | turn hs t ih =>
    have hc := ih.consistent _ (List.mem_of_getLast? hs.getLast?)
    exact ih.next hs.getLast? (t.consistent hs.sound hc) (t.prolongs hs.sound) fun _ _ hx hnew =>
      t.made hs.sound hx hnew
  | @tick sessions s now hs ih =>
    have hc := ih.consistent _ (List.mem_of_getLast? hs.getLast?)
    refine ih.next hs.getLast? ?_ (Streams.prolongs_tick _ _ _) fun id x hx hnew => ?_
    · exact hc.tick (Nat.le_refl _) now
    · have hx' : (s.streams.tick now (s.passNumber + 1)).2.find? id = some x := hx
      rw [Streams.find?_tick, hnew] at hx'
      cases hx'

/-- The streams last. In all sessions since the program was last begun the streams are consistent,
the map of creators is injective and is what a call finds its stream by, the first that it made, and
steps that are taken again leave the streams as they are (1). A stream begins with its producer's first value, for the pass in which
the stream was made (2). From one session to any later one each call keeps its stream, and the
stream its values at the beginning of the list (3). -/
theorem streams_lasting {d : Draft} {root : NodeId} {t : Tree} {config : Config} {s : Session}
    (ht : d.finish root = .ok t) (hs : Session.start t config = .ok s) (commands : List Command) :
    let c := (Course.start s).run commands
    (c.now = s.after commands ∧ c.sessions.getLast? = some c.now) ∧
    (∀ p ∈ c.sessions, p.streams.Consistent (p.passNumber + 1) ∧
      (∀ creator, p.streams.createdBy? creator = p.streams.byCreator.lookup creator ∧
        p.streams.createdBy? creator =
          (p.streams.streams.find? fun x => x.creator = creator).map fun x => x.id) ∧
      (∀ creator creator' id, p.streams.byCreator.lookup creator = some id →
        p.streams.byCreator.lookup creator' = some id → creator = creator') ∧
      ∀ place offset, place < p.passes.size → offset < p.length place →
        ∃ step q, (p.placed place offset).advance true = some (step, q) ∧
          q.streams = p.streams) ∧
    (∀ p ∈ c.sessions, ∀ id x, p.streams.find? id = some x →
      ∃ first, c.sessions.find? (fun q => q.hasStream id) = some first ∧
        x.values[0]? = some ⟨Clock.initial, first.passNumber⟩) ∧
    c.sessions.Pairwise fun p q => p.streams.Prolongs q.streams ∧
      ∀ creator id, p.streams.byCreator.lookup creator = some id →
        q.streams.byCreator.lookup creator = some id := by
  intro c
  have hstart := host_start ht hs
  have hempty : s.streams = .empty := by
    rw [(start_cases hs).2.2]
    rfl
  have hsucc : Successive c.sessions c.now :=
    Successive.run (c := Course.start s) (.begun hstart.sound hempty) hstart commands
  have hl := hsucc.lasting
  refine ⟨⟨(Course.start s).run_now commands, hsucc.getLast?⟩, fun p hp => ?_, hl.made, ?_⟩
  · have hc := hl.consistent p hp
    refine ⟨hc, fun creator => ⟨rfl, hc.createdBy?_eq creator⟩, fun _ _ _ => hc.injective, fun place offset hplace ho => ?_⟩
    obtain ⟨step, -, hstep⟩ := (hsucc.forall_sound p hp).advance_placed hplace ho
    exact ⟨step, _, hstep, rfl⟩
  · refine hl.prolongs.imp_of_mem fun {p q} hp hq hpq => ⟨hpq, fun creator id hid => ?_⟩
    exact hpq.lookup (hl.consistent p hp) (hl.consistent q hq) hid

/-- The clock has a value from its first pass and one from a tick. -/
theorem streams_lasting_clock : clockTree.edit.finish ⟨3⟩ = .ok clockTree ∧
    ∃ s, Session.start clockTree .default = .ok s ∧
      let now := s.after [.evaluate, .tick 40, .react]
      now.streams.byCreator.lookup ⟨1⟩ = some ⟨0⟩ ∧
        ∃ x, now.streams.find? ⟨0⟩ = some x ∧ x.creator = ⟨1⟩ ∧ x.values.size = 2 ∧
          x.values[0]? = some ⟨Clock.initial, 0⟩ := by
  refine ⟨finish_clock, _, start_clock, ?_⟩
  have h := streams_lasting finish_clock start_clock [.evaluate, .tick 40, .react]
  -- the course is run for three facts, and is a variable from there on
  obtain ⟨c, hc⟩ : ∃ c, (Course.start (ofProgram (Program.ofTree clockTree .default))).run
    [.evaluate, .tick 40, .react] = c := ⟨_, rfl⟩
  have hlookup : c.now.streams.byCreator.lookup ⟨1⟩ = some ⟨0⟩ := by
    rw [← hc]
    decide +kernel
  have hsize : (c.now.streams.find? ⟨0⟩).map (fun x => x.values.size) = some 2 := by
    rw [← hc]
    decide +kernel
  have hpass :
      (c.sessions.find? fun q => q.hasStream ⟨0⟩).map (fun q => q.passNumber) = some 0 := by
    rw [← hc]
    decide +kernel
  rw [hc] at h
  obtain ⟨⟨hnow, hlast⟩, hall, hmade, -⟩ := h
  rw [← hnow]
  have hmem := List.mem_of_getLast? hlast
  obtain ⟨x, hx, hcreator⟩ := (hall _ hmem).1.byCreator_iff.1 hlookup
  obtain ⟨first, hfirst, hv⟩ := hmade _ hmem ⟨0⟩ x hx
  rw [hx] at hsize
  rw [hfirst] at hpass
  have hzero : first.passNumber = 0 := Option.some.inj hpass
  rw [hzero] at hv
  exact ⟨hlookup, x, hx, hcreator, Option.some.inj hsize, hv⟩

end Session
end ReactiveLang
