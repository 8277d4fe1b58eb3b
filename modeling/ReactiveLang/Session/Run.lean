import ReactiveLang.Ascending
import ReactiveLang.Session.Cursor

/-!
# Running and reacting

`evaluate` runs the newest pass to its end. `tick` asks the streams for values; `react` then runs
the program again in a new pass, which reads them and may use the values of the pass before.
-/

namespace ReactiveLang.Session

/-- Takes steps until there are no more. Mirrors quill-eval/evaluator:249. -/
def runOut : Nat → Session → Session
  | 0, s => s
  | fuel + 1, s =>
    match s.step with
    | (some _, s) => runOut fuel s
    | (none, s) => s

variable (s : Session)

/-- Runs the newest pass to its end and gives its result. The step after the last that a pass may
take ends it, so there are enough steps. Mirrors quill-eval/evaluator:245-251 (`evaluate`). -/
def evaluate : Value × Session :=
  let s := if s.position < s.log.size then s.moveTo s.log.size else s
  let s := runOut (s.program.config.maxSteps + 2) s
  (s.result.getD .nothing, s)

/-- The host's time is `now`: asks the streams for values, which the next pass reads, and gives
those that have one. Mirrors quill-eval/evaluator:283-288 (`tick`). -/
def tick (now : Float) : List StreamId × Session :=
  let (changed, streams) := s.streams.tick now (s.passNumber + 1)
  (changed, { s with streams, pending := Ascending.union s.pending changed })

/-- What the next pass starts with, after the machine at the cursor. Mirrors
quill-eval/evaluator:302-314. -/
def nextPass : Pass where
  number := s.passNumber + 1
  changed := s.pending
  changedCreators :=
    Ascending.ofList (s.pending.filterMap fun id => (s.streams.find? id).map fun x => x.creator)
  memo := s.machine.memo
  reactions := s.machine.reactions

/-- Begins a pass at the end of the log. Mirrors quill-eval/evaluator:266-275 (`begin_pass`). -/
def beginPass (pass : Pass) : Session :=
  let machine := Machine.start s.program
  { s with
    machine
    passes := s.passes.push ⟨s.log.size, pass, #[machine]⟩
    cursor := s.passes.size
    result := none
    pending := [] }

/-- Takes a reaction to the history, and tells the subscriber. Mirrors
quill-eval/evaluator:332-334. -/
def announce (r : Reaction) : Session :=
  { s with
    history := s.history.push r
    notices := s.notices.map fun unread => unread ++ [r.notice] }

/-- Finishes the newest pass and runs the program again, in a pass that reads the newest values of
the streams. Mirrors quill-eval/evaluator:299-336 (`react`). -/
def react : Value × Session :=
  let (_, s) := s.evaluate
  let (result, s) := (s.beginPass s.nextPass).evaluate
  let r := s.record s.newest
  (result, s.announce ⟨r.pass.number, r.pass.changed, result, r.start, s.log.size - r.start⟩)

/-- Forgets everything but the subscriber, and runs the program anew. Mirrors
quill-eval/evaluator:340-349 (`restart`). -/
def restart : Value × Session :=
  let s := { s with streams := .empty, history := #[], pending := [], log := #[], passes := #[] }
  (s.beginPass .first).evaluate

/-! ## The subscriber -/

/-- From now on there is a new subscriber, and no other. Mirrors quill-eval/evaluator:353-357
(`subscribe`). -/
def subscribe : Session := { s with notices := some [] }

def unsubscribe : Session := { s with notices := none }

/-- Gives the subscriber what it has not fetched yet. -/
def drain : List Notice × Session :=
  (s.notices.getD [], { s with notices := s.notices.map fun _ => [] })

end ReactiveLang.Session
