import ReactiveLang.Types.Ty

/-!
# Compatibility

`expected.accepts given` says that a value of type `given` may be used where `expected` is asked
for. An unknown type accepts everything and is accepted by everything, so that one mistake is
reported once.
-/

namespace ReactiveLang.Ty

mutual

/-- A value of the given type may be used where this type is expected.  A given union must be
accepted whole, an expected union by one side. Collections and streams follow their items,
structures their definitions, and functions take more and give less. A measurement of any unit
accepts every unit. Mirrors quill-analysis/ty:122-157 (`accepts`). -/
def accepts (expected given : Ty) : Bool :=
  match expected, given with
  | unknown _, _ => true
  | _, unknown _ => true
  | _, never => true
  | t, union a b => accepts t a && accepts t b
  | union a b, t => accepts a t || accepts b t
  | boolean, boolean => true
  | text, text => true
  | nothing, nothing => true
  | measurement none, measurement _ => true
  | measurement (some u), measurement (some v) => u = v
  | list a, list b => accepts a b
  | set a, set b => accepts a b
  | stream a, stream b => accepts a b
  | map k v, map k' v' => accepts k k' && accepts v v'
  | instanceOf d _, instanceOf d' _ => d = d'
  | function inputs output, function inputs' output' =>
    acceptsInputs inputs inputs' && accepts output output'
  | _, _ => false
termination_by sizeOf expected + sizeOf given

/-- Equally many inputs, and each given one accepts the expected one. -/
def acceptsInputs (expected given : List Ty) : Bool :=
  match expected, given with
  | [], [] => true
  | e :: es, g :: gs => accepts g e && acceptsInputs es gs
  | _, _ => false
termination_by sizeOf expected + sizeOf given

end

/-- A boolean, or what may turn out to be one. -/
def isBoolean (t : Ty) : Bool := t.isUnknown || boolean.accepts t

def isMeasurement (t : Ty) : Bool := t.isUnknown || (measurement none).accepts t

def isText (t : Ty) : Bool := t.isUnknown || text.accepts t

end ReactiveLang.Ty
