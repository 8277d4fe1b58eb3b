import ReactiveLang.Json.Decode
import ReactiveLang.Json.Printer
import ReactiveLang.Number.Style

/-!
# Limits and settings

What an engine may do in one pass, how often it keeps a state for going back, and how often time
ticks. A limit that is exceeded ends the program with an exception.
-/

namespace ReactiveLang

/-- Mirrors quill-eval/config:13-24. -/
structure Config where
  /-- Steps in one pass. -/
  maxSteps : Nat
  /-- Frames at once, the program's own included. -/
  maxCallDepth : Nat
  /-- Calls of one definition in one pass. -/
  maxEvaluations : Nat
  /-- Steps between two kept states. -/
  snapshotInterval : Nat
  /-- Milliseconds between the values of a `Time()` without an input. -/
  timeFrequency : Float

/-- What makes settings unusable. -/
inductive ConfigFault where
  | snapshotInterval
  | callDepth
  | timeFrequency
  deriving DecidableEq

def ConfigFault.message : ConfigFault → String
  | snapshotInterval => "snapshot_interval must be at least 1"
  | callDepth => "max_call_depth must be at least 1"
  | timeFrequency => "time_frequency_ms must be a non-negative number"

namespace Config

/-- Mirrors quill-eval/config:27-35. -/
def default : Config where
  maxSteps := 500000
  maxCallDepth := 256
  maxEvaluations := 100000
  snapshotInterval := 64
  timeFrequency := 33.0

instance : Inhabited Config := ⟨default⟩

/-- The first fault, if there is one. Mirrors quill-eval/config:50-67 (`validate`). -/
def fault? (c : Config) : Option ConfigFault :=
  if c.snapshotInterval = 0 then some .snapshotInterval
  else if c.maxCallDepth = 0 then some .callDepth
  else if c.timeFrequency.isNaN || c.timeFrequency < 0.0 then some .timeFrequency
  else none

/-- The same settings; the frequencies are compared as numbers. -/
def same (a b : Config) : Bool :=
  a.maxSteps = b.maxSteps && a.maxCallDepth = b.maxCallDepth &&
    a.maxEvaluations = b.maxEvaluations && a.snapshotInterval = b.snapshotInterval &&
    a.timeFrequency == b.timeFrequency

def toJson (c : Config) : Json :=
  .object [
    ("max_steps", .nat c.maxSteps),
    ("max_call_depth", .nat c.maxCallDepth),
    ("max_evaluations_per_function", .nat c.maxEvaluations),
    ("snapshot_interval", .nat c.snapshotInterval),
    ("time_frequency_ms", .number (Number.Style.interchange.render c.timeFrequency))]

/-- A field's value, or its default when it is left out. -/
def fieldOr {α : Type} (default : α) (read : Json → Option α) : Option Json → Option α
  | none => some default
  | some j => read j

/-- Reads settings; what is left out has its default. -/
def ofJson? (j : Json) : Option Config := do
  let (_, fields, _) ← j.toFields?
    ["max_steps", "max_call_depth", "max_evaluations_per_function", "snapshot_interval",
      "time_frequency_ms"] Json.depthLimit
  match fields with
  | [steps, depth, evaluations, interval, frequency] =>
    let maxSteps ← fieldOr default.maxSteps Json.toNat64? steps
    let maxCallDepth ← fieldOr default.maxCallDepth Json.toNat64? depth
    let maxEvaluations ← fieldOr default.maxEvaluations Json.toNat64? evaluations
    let snapshotInterval ← fieldOr default.snapshotInterval Json.toNat64? interval
    let timeFrequency ← fieldOr default.timeFrequency Json.toFloat? frequency
    some { maxSteps, maxCallDepth, maxEvaluations, snapshotInterval, timeFrequency }
  | _ => none

end Config
end ReactiveLang
