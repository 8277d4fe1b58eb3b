import ReactiveLang.Session.Basic

/-!
# Moving the cursor

Below the end of the log the cursor moves by taking logged steps again; at the end it takes a new
step. Going back starts from the nearest machine that was kept. A step that is taken again changes
nothing but the machine at the cursor.
-/

namespace ReactiveLang.Session

variable (s : Session)

/-- Takes a step of the pass at the cursor. Mirrors quill-eval/evaluator:166-176 (`advance`). -/
def advance (replaying : Bool) : Option (Step × Session) :=
  match s.machine.step ⟨s.program, (s.record s.cursor).pass, s.streams, replaying⟩ with
  | some (step, machine, streams) => some (step, { s with machine, streams })
  | none => none

/-- Takes logged steps again, so many of them. Mirrors quill-eval/evaluator:237-241. -/
def replay : Nat → Session → Session
  | 0, s => s
  | count + 1, s =>
    match s.advance true with
    | some (_, s) => replay count s
    | none => s

/-- Puts the cursor where a machine was kept. Mirrors quill-eval/evaluator:231-235. -/
def restore (place snapshot : Nat) : Session :=
  { s with
    machine := ((s.record place).snapshots[snapshot]?).getD (Machine.start s.program)
    cursor := place }

/-- The cursor has to go to a machine that was kept: the place is in another pass, before the
cursor, or beyond the next such machine. Mirrors quill-eval/evaluator:225-229. -/
def mustRestore (place offset : Nat) : Bool :=
  let interval := s.program.config.snapshotInterval
  place ≠ s.cursor || offset < s.machine.index || s.machine.index < offset / interval * interval

/-- Puts the cursor into a pass, after so many of its steps. Mirrors quill-eval/evaluator:224-242
(`seek`). -/
def seek (place offset : Nat) : Session :=
  let s :=
    if s.mustRestore place offset then
      s.restore place (offset / s.program.config.snapshotInterval)
    else s
  replay (offset - s.machine.index) s

/-- Of the first passes, so many of them, the last one that starts before a place of the log; the
first one if there is none. Mirrors quill-eval/evaluator:214-218. -/
def passBefore (target : Nat) : Nat → Nat
  | 0 => 0
  | place + 1 => if (s.record place).start < target then place else passBefore target place

/-- Puts the cursor after so many logged steps, at most at the end of the log. Where one pass ends
and the next begins, the cursor is at the end of the earlier one. Mirrors
quill-eval/evaluator:212-221 (`step_to`). -/
def moveTo (index : Nat) : Session :=
  let target := min index s.log.size
  let place := s.passBefore target s.passes.size
  s.seek place (target - (s.record place).start)

/-- Moves the cursor back, at most to the start of the log. Mirrors quill-eval/evaluator:204-207
(`step_back`). -/
def moveBack (count : Nat) : Session := s.moveTo (s.position - count)

/-- Keeps the machine at the cursor, if it is time to. Mirrors quill-eval/evaluator:191-196. -/
def keepSnapshot : Session :=
  let interval := s.program.config.snapshotInterval
  let index := s.machine.index
  if index % interval = 0 then
    { s with
      passes := s.passes.modify s.cursor fun r =>
        if index / interval = r.snapshots.size then
          { r with snapshots := r.snapshots.push s.machine }
        else r }
  else s

/-- Logs a new step. Mirrors quill-eval/evaluator:190-199. -/
def logged (step : Step) : Session :=
  let s := keepSnapshot { s with log := s.log.push step }
  if s.machine.isFinished then { s with result := some (s.machine.result.getD .nothing) } else s

/-- At the end of a finished pass, the cursor goes on to the next pass. Mirrors
quill-eval/evaluator:183-185. -/
def crossOver : Session :=
  if s.machine.isFinished && s.cursor < s.newest then s.seek (s.cursor + 1) 0 else s

/-- Takes the next step: a logged one again, or at the end of the log a new one, which is logged.
There is none once the newest pass is finished. Mirrors quill-eval/evaluator:182-201 (`step`). -/
def step : Option Step × Session :=
  let s := s.crossOver
  let atEnd := s.log.size ≤ s.position
  match s.advance (!atEnd) with
  | some (step, s) => (some step, if atEnd then s.logged step else s)
  | none => (none, s)

end ReactiveLang.Session
