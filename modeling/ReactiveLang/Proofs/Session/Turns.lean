import Mathlib.Logic.Relation
import ReactiveLang.Proofs.Session.Isolation

/-!
# What commands are made of

Every command but a tick and a restart is a chain of turns: the cursor goes somewhere else, a step
is added to the log, the next pass begins, or something is noted for the host.

* `Turn.sound`, `Turn.grows`: a turn leaves a sound session that has grown.
* `Host.turns`: the turns of a command; `Host.turns_renewed`: those of a restart.
* `Kept.after`, `Kept.started`: what turns, ticks and new beginnings keep holds after any commands,
  from whatever session they begin with, and from the start of a program.
-/

namespace ReactiveLang.Session

variable {s s' : Session}

/-- One thing that a session does in a command. -/
inductive Turn (s : Session) : Session → Prop where
  | placed {place offset : Nat} (hp : place < s.passes.size) (ho : offset ≤ s.length place) :
      Turn s (s.placed place offset)
  | stepped {step : Step} {m : Machine} {streams : Streams} (atEnd : s.AtEnd)
      (taken : s.machine.step ⟨s.program, (s.record s.cursor).pass, s.streams, false⟩ =
        some (step, m, streams)) : Turn s (s.stepped step m streams)
  | began (atEnd : s.AtEnd) (finished : s.machine.isFinished = true) :
      Turn s (s.beginPass s.nextPass)
  | told (history : Array Reaction) (notices : Option (List Notice)) :
      Turn s { s with history, notices }

theorem Turn.refl (s : Session) : Turn s s := .told s.history s.notices

theorem Turn.sound (t : Turn s s') (h : s.Sound) : s'.Sound := by
  cases t with
  | placed hp ho => exact h.placed hp ho
  | stepped atEnd taken => exact (h.stepped atEnd taken).1
  | began atEnd finished => exact (h.begin atEnd finished).1
  | told history notices => exact h.told history notices

theorem Turn.grows (t : Turn s s') (h : s.Sound) : Grows s s' := by
  cases t with
  | placed => exact h.grows_same rfl rfl rfl rfl
  | stepped _ taken => exact grows_step h taken
  | began => exact h.grows_beginPass _
  | told => exact h.grows_same rfl rfl rfl rfl

/-! ## The turns of a command -/

/-- A session comes to another one by turns. -/
abbrev Turns : Session → Session → Prop := Relation.ReflTransGen Turn

theorem Turns.sound (t : Turns s s') (h : s.Sound) : s'.Sound := by
  induction t with
  | refl => exact h
  | tail _ turn ih => exact turn.sound ih

theorem Sound.turns_runOut (h : s.Sound) (he : s.AtEnd) (fuel : Nat) :
    Turns s (Session.runOut fuel s) := by
  induction fuel generalizing s with
  | zero => exact .refl
  | succ fuel ih =>
    unfold Session.runOut
    obtain ⟨-, hs⟩ | ⟨step, m, streams, hm, hs⟩ := h.step_atEnd he
    · rw [hs]
    · rw [hs]
      obtain ⟨h', he'⟩ := h.stepped he hm
      exact .head (.stepped he hm) (ih h' he')

theorem Sound.turns_evaluate (h : s.Sound) (hb : s.Begun ∨ s.AtEnd) : Turns s s.evaluate.2 := by
  rw [(h.evaluate_eq hb).1]
  have hend : Turn s s.atEnd := .placed h.newest_lt (Nat.le_refl _)
  exact .head hend (h.atEnd.1.turns_runOut h.atEnd.2 _)

theorem Host.turn_moveTo (h : s.Host) (index : Nat) : Turn s (s.moveTo index) := by
  obtain ⟨h1, -, h3, -⟩ := h.sound.passTo_spec (Nat.min_le_right index s.log.size)
  rw [h.sound.moveTo]
  exact .placed h1 (Nat.sub_le_sub_right h3 _)

theorem Host.turn_step (h : s.Host) : Turn s s.step.2 := by
  obtain ⟨-, hs⟩ | ⟨-, -, hs⟩ | ⟨he, step, m, streams, hm, hs⟩ := h.step_cases
  · rw [hs]
    exact h.turn_moveTo _
  · rw [hs]
    exact .refl s
  · rw [hs]
    exact .stepped he hm

theorem Host.turns_react (h : s.Host) : Turns s s.react.2 := by
  have hrun := h.sound.evaluate (.inl h.begun)
  obtain ⟨hsound, he⟩ := h.sound.followed h.begun
  have hbegan : Turn s.evaluate.2 s.followed := .began hrun.atEnd hrun.finished
  rw [react_eq]
  exact (((h.sound.turns_evaluate (.inl h.begun)).tail hbegan).trans
    (hsound.turns_evaluate (.inr he))).tail (.told _ _)

/-- A command that is neither a tick nor a restart is a chain of turns. -/
theorem Host.turns (h : s.Host) {command : Command} (ht : command.isTick = false)
    (hr : command ≠ .restart) : Turns s (s.respond command).2 := by
  cases command with
  | step => exact .single h.turn_step
  | moveTo index => exact .single (h.turn_moveTo index)
  | moveBack count => exact .single (h.turn_moveTo _)
  | evaluate => exact h.sound.turns_evaluate (.inl h.begun)
  | tick now => cases ht
  | react => exact h.turns_react
  | restart => exact absurd rfl hr
  | subscribe => exact .single (.told _ _)
  | unsubscribe => exact .single (.told _ _)
  | drain => exact .single (.told _ _)

/-- A restart begins the program once more and runs it. -/
theorem Host.turns_renewed (h : s.Host) : Turns s.renewed s.restart.2 :=
  h.renewed.sound.turns_evaluate (.inl h.renewed.begun)

/-! ## What all commands keep -/

/-- Turns, ticks and new beginnings keep the property. -/
structure Kept (P : Session → Prop) : Prop where
  turn : ∀ {s s'}, s.Sound → P s → Turn s s' → P s'
  tick : ∀ {s}, s.Sound → P s → ∀ now, P (s.tick now).2
  renewed : ∀ {s}, s.Host → P s → P s.renewed

namespace Kept

variable {P : Session → Prop} (k : Kept P)
include k

theorem turns (h : s.Sound) (hs : P s) (t : Turns s s') : P s' := by
  induction t with
  | refl => exact hs
  | tail before turn ih => exact k.turn (Turns.sound before h) ih turn

theorem respond (h : s.Host) (hs : P s) (command : Command) : P (s.respond command).2 := by
  cases ht : command.isTick with
  | true =>
    cases command with
    | tick now => exact k.tick h.sound hs now
    | _ => cases ht
  | false =>
    by_cases hr : command = .restart
    · subst hr
      exact k.turns h.renewed.sound (k.renewed h hs) h.turns_renewed
    · exact k.turns h.sound hs (h.turns ht hr)

/-- What turns, ticks and new beginnings keep holds after any commands. -/
theorem after (h : s.Host) (hs : P s) (commands : List Command) : P (s.after commands) := by
  induction commands generalizing s with
  | nil => exact hs
  | cons command rest ih => exact ih (h.respond command) (k.respond h hs command)

/-- What holds of a program before its first step holds after any commands. -/
theorem started {d : Draft} {root : NodeId} {t : Tree} {config : Config} (ht : d.finish root = .ok t)
    (hs : Session.start t config = .ok s) (hfirst : P (ofProgram (Program.ofTree t config)))
    (commands : List Command) : P (s.after commands) := by
  have hstart := host_start ht hs
  obtain ⟨-, -, rfl⟩ := start_cases hs
  exact k.after hstart hfirst commands

end Kept

end ReactiveLang.Session
