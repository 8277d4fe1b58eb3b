import ReactiveLang.Value.Equality
import ReactiveLang.Value.Typing
import ReactiveLang.Value.Show
import ReactiveLang.Number.Reading
import ReactiveLang.Text.Blank
import ReactiveLang.Text.Search

/-!
# Built-in operations

Operators, methods of texts and built-in conversions, on values of any type. A value of the wrong
type is refused with the type that was expected.
-/

namespace ReactiveLang

/-- A value, or why there is none. -/
abbrev NativeResult := Except (ExceptionKind Value) Value

namespace Value

/-- The value as a measurement. Mirrors quill-eval/native:20-25 (`measurement`). -/
def measurementOf (v : Value) : Except (ExceptionKind Value) (Float × MeasureUnit) :=
  match v with
  | measurement x unit => .ok (x, unit)
  | other => .error (.typeMismatch (.measurement none) other)

/-- Mirrors quill-eval/native:27-31 (`boolean`). -/
def booleanOf (v : Value) : Except (ExceptionKind Value) Bool :=
  match v with
  | boolean b => .ok b
  | other => .error (.typeMismatch .boolean other)

/-- Mirrors quill-eval/native:33-37 (`text`). -/
def textOf (v : Value) : Except (ExceptionKind Value) String :=
  match v with
  | text s => .ok s
  | other => .error (.typeMismatch .text other)

end Value

/-! ## Operators -/

/-- Both operands as booleans; the right one is looked at only if the left one leaves it open.
Mirrors quill-eval/native:48-49. -/
def BinaryOperator.logical (operator : BinaryOperator) (left right : Value) : NativeResult := do
  let l ← left.booleanOf
  match operator with
  | .and => if l then return .boolean (← right.booleanOf) else return .boolean false
  | _ => if l then return .boolean true else return .boolean (← right.booleanOf)

/-- The operators on numbers whose units are the same. Mirrors quill-eval/native:68-77. -/
def BinaryOperator.onNumbers (operator : BinaryOperator) (unit : MeasureUnit) (x y : Float) :
    Value :=
  match operator with
  | .add => .measurement (x + y) unit
  | .subtract => .measurement (x - y) unit
  | .remainder => .measurement (Number.remainder x y) unit
  | .less => .boolean (x < y)
  | .greater => .boolean (y < x)
  | .lessOrEqual => .boolean (x ≤ y)
  | _ => .boolean (y ≤ x)

/-- The value of a binary operation. Mirrors quill-eval/native:43-80 (`binary`). -/
def BinaryOperator.apply (operator : BinaryOperator) (left right : Value) : NativeResult :=
  match operator with
  | .equal => .ok (.boolean (left.same right))
  | .notEqual => .ok (.boolean (!left.same right))
  | .and | .or => operator.logical left right
  | .multiply => do
    let (x, u) ← left.measurementOf
    let (y, v) ← right.measurementOf
    return .measurement (x * y) (u.product v)
  | .divide => do
    let (x, u) ← left.measurementOf
    let (y, v) ← right.measurementOf
    return .measurement (x / y) (u.quotient v)
  | _ => do
    let (x, u) ← left.measurementOf
    let (y, v) ← right.measurementOf
    if u = v then return operator.onNumbers u x y
    else throw (.typeMismatch (.measurement (some u)) right)

/-- The value of a unary operation. Mirrors quill-eval/native:82-90 (`unary`). -/
def UnaryOperator.apply (operator : UnaryOperator) (operand : Value) : NativeResult :=
  match operator with
  | .negate => do
    let (x, u) ← operand.measurementOf
    return .measurement (-x) u
  | .not => do
    let b ← operand.booleanOf
    return .boolean (!b)

/-! ## Methods of texts -/

namespace TextMethod

/-- The longest text, in bytes, that a method makes. Mirrors quill-eval/native:18
(`MAX_TEXT_BYTES`). -/
def byteLimit : Nat := Nat.pow 2 24

/-- The argument at a position; a missing one is named as the method declares it. Mirrors
quill-eval/native:133-142 (`nth_input`). -/
def argument (m : TextMethod) (arguments : List Value) (i : Nat) :
    Except (ExceptionKind Value) Value :=
  match arguments[i]? with
  | some v => .ok v
  | none => .error (.valueRequired ((m.signature.inputs[i]?.map fun i => i.name).getD ""))

/-- The largest number of a word of 64 bits, in which counts and lengths are told. -/
def largestWord : Nat := Nat.pow 2 64 - 1

/-- How often a text is repeated: the whole part of a positive finite count, as far as a word goes,
else not at all. -/
def times (count : Float) : Nat := min ((Number.floorNat? count).getD 0) largestWord

/-- The product of two words, unless it overflows a word. -/
def wordProduct? (a b : Nat) : Option Nat := if a * b ≤ largestWord then some (a * b) else none

/-- The text so many times over is too long, or a word cannot tell how long it is. -/
def isTooLong (receiver : String) (times : Nat) : Bool :=
  match wordProduct? receiver.utf8ByteSize times with
  | some size => byteLimit < size
  | none => true

/-- The text so many times over, unless that is too long. -/
def repeatText (receiver : String) (times : Nat) : NativeResult :=
  if isTooLong receiver times then .error (.textTooLong byteLimit)
  else if receiver.isEmpty then .ok (.text "")
  else .ok (.text (String.join (List.replicate times receiver)))

/-- What a method of `receiver` gives for some arguments. Mirrors quill-eval/native:97-131
(`text_method`). -/
def apply (m : TextMethod) (receiver : String) (arguments : List Value) : NativeResult :=
  match m with
  | length => .ok (.number (Float.ofNat receiver.length))
  | repeated => do
    let (count, _) ← (← m.argument arguments 0).measurementOf
    repeatText receiver (times count)
  | equals => do
    let other ← (← m.argument arguments 0).textOf
    return .boolean (receiver = other)
  | notEquals => do
    let other ← (← m.argument arguments 0).textOf
    return .boolean (receiver ≠ other)
  | segment => do
    let delimiter ← (← m.argument arguments 0).textOf
    return .list ((Text.segments delimiter receiver).map .text)
  | combine => do
    let other ← (← m.argument arguments 0).textOf
    return .text (receiver ++ other)
  | has => do
    let part ← (← m.argument arguments 0).textOf
    return .boolean (Text.has receiver part)

/-- The method read off a value, which has to be a text. Mirrors quill-eval/native:145-150
(`text_property`). -/
def ofReceiver (m : TextMethod) (subject : Value) : NativeResult := do
  let receiver ← subject.textOf
  return .function (.text m receiver)

end TextMethod

/-! ## Conversions -/

/-- What a built-in conversion makes of a value. Mirrors quill-eval/native:156-189 (`convert`). -/
def NativeConversion.apply (c : NativeConversion) (v : Value) : NativeResult :=
  match c with
  | textToList => do
    let s ← v.textOf
    return .list (s.toList.map fun c => .text (String.singleton c))
  | textToNumber => do
    let s ← v.textOf
    return ((Number.parse? (Text.trim s)).map Value.number).getD .nothing
  | numberToText => do
    let (x, unit) ← v.measurementOf
    return .text (Value.renderMeasurement x unit)
  | booleanToText => do
    let b ← v.booleanOf
    return .text (Value.renderBoolean b)
  | listToSet =>
    match v with
    | .list items => .ok (Value.setOf items)
    | other => .error (.typeMismatch (.list (.unknown .unsupported)) other)
  | setToList =>
    match v with
    | .set items => .ok (.list items)
    | other => .error (.typeMismatch (.set (.unknown .unsupported)) other)

end ReactiveLang
