import ReactiveLang.Eval.Machine
import ReactiveLang.Value.Show

/-!
# Sessions

A session runs a program for a host, pass after pass. It keeps the log of all steps since the
program began, what every pass started with, and a machine every so many steps, so that a cursor
can go to any place of the log.
-/

namespace ReactiveLang

/-- Why the host does not get what it asked for. -/
inductive EngineError where
  /-- The program has conflicts that keep it from running. -/
  | conflicts (found : List Conflict)
  | unknownStream (id : StreamId)
  | invalidConfig (fault : ConfigFault)
  /-- A document could not be read. -/
  | serialization

/-- What the host is told, unless the document's reader has to say it. -/
def EngineError.message? : EngineError → Option String
  | conflicts found =>
    some ("program has " ++ toString (found.filter fun c => c.fatal).length ++
      " fatal conflict(s)")
  | unknownStream id => some ("no stream with id " ++ id.render)
  | invalidConfig fault => some ("invalid engine configuration: " ++ fault.message)
  | serialization => none

/-- Where a pass is in the log, what it started with, and its states to go back to. Mirrors
quill-eval/evaluator:74-81. -/
structure PassRecord where
  /-- The number of steps that were logged before the pass. -/
  start : Nat
  pass : Pass
  /-- The machine at the start and after every interval of the pass's steps. -/
  snapshots : Array Machine
  deriving Inhabited

/-- A finished pass that changes of streams have started. Mirrors quill-eval/evaluator:40-49. -/
structure Reaction where
  /-- The number of the pass. -/
  pass : Nat
  changed : List StreamId
  result : Value
  /-- The number of steps that were logged before the pass. -/
  start : Nat
  /-- The number of steps that the pass took. -/
  steps : Nat

/-- What a subscriber is told of a reaction. Mirrors quill-eval/evaluator:53-59. -/
structure Notice where
  pass : Nat
  changed : List StreamId
  steps : Nat
  /-- The result as it is shown. -/
  result : String

/-- Mirrors quill-eval/evaluator:61-70. -/
def Reaction.notice (r : Reaction) : Notice := ⟨r.pass, r.changed, r.steps, r.result.render⟩

/-- Mirrors quill-eval/evaluator:83-102. -/
structure Session where
  program : Program
  streams : Streams
  /-- Every pass since the program began, oldest first. -/
  passes : Array PassRecord
  /-- The place of the pass that the machine is in. -/
  cursor : Nat
  machine : Machine
  log : Array Step
  /-- The result of the newest pass, once it is finished. -/
  result : Option Value
  /-- Oldest first. -/
  history : Array Reaction
  /-- The streams that have changed since the newest pass began, in order. -/
  pending : List StreamId
  /-- What the subscriber has not fetched yet, if there is one. -/
  notices : Option (List Notice)

namespace Session

/-- Before the first step of a program. Mirrors quill-eval/evaluator:131-150. -/
def ofProgram (p : Program) : Session :=
  let machine := Machine.start p
  { program := p
    streams := .empty
    passes := #[⟨0, .first, #[machine]⟩]
    cursor := 0
    machine
    log := #[]
    result := none
    history := #[]
    pending := []
    notices := none }

/-- A session of a program, unless the settings are unusable or the program may not run. Mirrors
quill-eval/evaluator:112-151 (`with_config`). -/
def start (t : Tree) (config : Config) : Except EngineError Session :=
  match config.fault? with
  | some fault => .error (.invalidConfig fault)
  | none =>
    let p := Program.ofTree t config
    if Conflict.anyFatal p.conflicts then .error (.conflicts p.conflicts)
    else .ok (ofProgram p)

variable (s : Session)

/-! ## What the host can see -/

/-- The place of the newest pass. Mirrors quill-eval/evaluator:157-159. -/
def newest : Nat := s.passes.size - 1

def record (place : Nat) : PassRecord := s.passes[place]?.getD default

/-- The number of the newest pass. -/
def passNumber : Nat := (s.record s.newest).pass.number

/-- The number of the pass at the cursor. -/
def cursorPass : Nat := (s.record s.cursor).pass.number

/-- The number of steps that lead to the cursor. Mirrors quill-eval/evaluator:162-164. -/
def position : Nat := (s.record s.cursor).start + s.machine.index

def isFinished : Bool := s.result.isSome

def hasPendingChanges : Bool := !s.pending.isEmpty

def stream (id : StreamId) : Except EngineError Stream :=
  match s.streams.find? id with
  | some stream => .ok stream
  | none => .error (.unknownStream id)

/-- The newest value of a stream that the pass at the cursor reads. -/
def streamValue (id : StreamId) : Except EngineError (Option Value) :=
  (s.stream id).map fun stream => stream.latestAt? s.cursorPass

/-- The session in one line. -/
def describe : String :=
  "Evaluator \x7b pass: " ++ toString s.passNumber ++
    ", cursor_pass: " ++ toString s.cursorPass ++
    ", status: " ++ s.machine.status.name ++
    ", step_index: " ++ toString s.position ++
    ", step_count: " ++ toString s.log.size ++
    ", streams: " ++ toString s.streams.size ++ " \x7d"

end Session
end ReactiveLang
