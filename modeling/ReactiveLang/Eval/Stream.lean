import ReactiveLang.Value.Basic
import ReactiveLang.Eval.Config
import ReactiveLang.Number.Binary64

/-!
# Streams

A stream is a growing sequence of values from outside. A call of a stream's definition makes it
the first time it runs, and finds it again in every later pass. Each value is marked with the
first pass that may read it, so that a pass reads the same values however often it is run.
-/

namespace ReactiveLang

/-! ## The source of time -/

/-- Gives the milliseconds since the first tick, at most once in `frequency` milliseconds. Mirrors
quill-eval/stream:52-57. -/
structure Clock where
  frequency : Float
  /-- The frequency without an input. -/
  defaultFrequency : Float
  first : Option Float
  last : Option Float

namespace Clock

def ofFrequency (frequency : Float) : Clock := ⟨frequency, frequency, none, none⟩

def reading (ms : Float) : Value := .measurement ms StreamKind.milliseconds

/-- The value before any tick. -/
def initial : Value := reading 0.0

/-- Takes the inputs of the call: a number is the frequency. Mirrors quill-eval/stream:87-92
(`configure`). -/
def configure (c : Clock) (inputs : List Value) : Clock :=
  { c with frequency := (inputs.head?.bind Value.toNumber?).getD c.defaultFrequency }

/-- It is time for a value. -/
def isDue (c : Clock) (now : Float) : Bool :=
  match c.last with
  | none => true
  | some last => c.frequency ≤ now - last

/-- The host's time is `now`: a value, if it is time for one. Mirrors quill-eval/stream:94-105
(`tick`). -/
def tick (c : Clock) (now : Float) : Option Value × Clock :=
  let first := c.first.getD now
  if c.isDue now then
    (some (reading (Number.rounded (now - first))), { c with first := some first, last := some now })
  else (none, { c with first := some first })

end Clock

/-! ## Streams -/

/-- A value and the first pass that may read it. Mirrors quill-eval/stream:121-125. -/
structure StreamValue where
  value : Value
  pass : Nat

/-- Mirrors quill-eval/stream:128-134. -/
structure Stream where
  id : StreamId
  kind : StreamKind
  /-- The call that made the stream. -/
  creator : NodeId
  clock : Clock
  /-- Oldest first. -/
  values : Array StreamValue

namespace Stream

variable (s : Stream)

/-- What a pass may read, oldest first. Mirrors quill-eval/stream:168-173 (`visible`). -/
def visible (pass : Nat) : List Value :=
  (s.values.toList.filter fun v => v.pass ≤ pass).map fun v => v.value

/-- The newest value. Mirrors quill-eval/stream:164-166 (`latest`). -/
def latest? : Option Value := s.values.back?.map fun v => v.value

/-- The newest value that a pass may read. Mirrors quill-eval/stream:176-178 (`latest_at`). -/
def latestAt? (pass : Nat) : Option Value :=
  (s.values.toList.reverse.find? fun v => v.pass ≤ pass).map fun v => v.value

/-- The value `count` before the newest one that a pass may read, or the oldest. Mirrors
quill-eval/stream:182-186 (`previous_at`). -/
def previousAt? (count pass : Nat) : Option Value :=
  let visible := s.visible pass
  visible[visible.length - 1 - count]?

end Stream

/-- All streams, by their places, and the map from the call that made each of them. Mirrors
quill-eval/stream:191-194. -/
structure Streams where
  streams : Array Stream
  byCreator : List (NodeId × StreamId)
  deriving Inhabited

namespace Streams

variable (ss : Streams)

def empty : Streams := ⟨#[], []⟩

def size : Nat := ss.streams.size

def find? (id : StreamId) : Option Stream := ss.streams[id.index]?

/-- The stream that a call made. Mirrors quill-eval/stream:217-219 (`created_by`). -/
def createdBy? (creator : NodeId) : Option StreamId := ss.byCreator.lookup creator

/-- A new stream, which `pass` may read. Mirrors quill-eval/stream:235-251. -/
def create (kind : StreamKind) (creator : NodeId) (inputs : List Value) (pass : Nat)
    (config : Config) : StreamId × Streams :=
  let id : StreamId := ⟨ss.size⟩
  let clock := (Clock.ofFrequency config.timeFrequency).configure inputs
  (id, ⟨ss.streams.push ⟨id, kind, creator, clock, #[⟨Clock.initial, pass⟩]⟩,
    Keyed.insert creator id ss.byCreator⟩)

/-- Gives a stream the inputs of a later run of its call. Mirrors quill-eval/stream:231-234. -/
def configure (id : StreamId) (inputs : List Value) : Streams :=
  { ss with streams := ss.streams.modify id.index fun s =>
      { s with clock := s.clock.configure inputs } }

/-- The stream that a call made before, with new inputs, or a new stream. Mirrors
quill-eval/stream:223-252 (`create_or_reuse`). -/
def createOrReuse (kind : StreamKind) (creator : NodeId) (inputs : List Value) (pass : Nat)
    (config : Config) : StreamId × Streams :=
  match ss.createdBy? creator with
  | some id => (id, ss.configure id inputs)
  | none => ss.create kind creator inputs pass config

end Streams

/-- The host's time is `now`: the stream with the value that came, if one did. -/
def Stream.tick (s : Stream) (now : Float) (nextPass : Nat) : Bool × Stream :=
  match s.clock.tick now with
  | (some value, clock) => (true, { s with clock, values := s.values.push ⟨value, nextPass⟩ })
  | (none, clock) => (false, { s with clock })

/-- Asks every stream for a value, which passes from `nextPass` on may read. Gives the streams that
have one. Mirrors quill-eval/stream:256-269 (`tick`). -/
def Streams.tick (ss : Streams) (now : Float) (nextPass : Nat) : List StreamId × Streams :=
  let ticked := ss.streams.map fun s => s.tick now nextPass
  ((ticked.toList.filter fun p => p.1).map fun p => p.2.id,
    { ss with streams := ticked.map fun p => p.2 })

end ReactiveLang
