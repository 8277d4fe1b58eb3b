import ReactiveLang.Number.Reading

/-!
# Numbers of interchanged documents

A document's number is read with 64 bits of digits and scaled by one floating point operation per
308 powers of ten, so the last bit may differ from the nearest number. A number too large for the
format is refused.
-/

namespace ReactiveLang.Number

/-- A number as a document spells it, in parts. -/
structure Literal where
  negative : Bool
  whole : List Char
  /-- The digits after the point, empty without a point. -/
  fraction : List Char
  exponent : Int
  /-- Neither point nor exponent. -/
  integral : Bool

namespace Literal

/-- Takes a spelling that follows the grammar of documents apart. -/
def ofSpelling (spelling : String) : Literal :=
  let cs := spelling.toList
  let negative := cs.head? = some '-'
  let cs := if negative then cs.drop 1 else cs
  let whole := cs.takeWhile Char.isDigit
  let rest := cs.dropWhile Char.isDigit
  let fraction := if rest.head? = some '.' then (rest.drop 1).takeWhile Char.isDigit else []
  let rest := if rest.head? = some '.' then (rest.drop 1).dropWhile Char.isDigit else rest
  let exponent := (parseExponent? (rest.drop 1)).getD 0
  { negative, whole, fraction, exponent, integral := fraction.isEmpty && rest.isEmpty }

def natOf (digits : List Char) : Nat := (readDigits 0 0 digits).1

/-- The integer of that value; a negative zero is none. -/
def toInt? (l : Literal) : Option Int :=
  let n := natOf l.whole
  if !l.integral then none
  else if l.negative then (if n = 0 then none else some (-n))
  else some n

/-- What 64 bits hold. -/
def digitLimit : Nat := Nat.pow 2 64

/-- Takes in digits of the whole part while they fit; each further one is a power of ten. -/
def wholePart : Nat → List Char → Nat × Int
  | significand, [] => (significand, 0)
  | significand, c :: rest =>
    let next := significand * 10 + (c.toNat - '0'.toNat)
    if next < digitLimit then wholePart next rest else (significand, rest.length + 1)

/-- Takes in digits after the point while they fit and drops the others. -/
def fractionPart : Nat → Int → List Char → Nat × Int
  | significand, exponent, [] => (significand, exponent)
  | significand, exponent, c :: rest =>
    let next := significand * 10 + (c.toNat - '0'.toNat)
    if next < digitLimit then fractionPart next (exponent - 1) rest else (significand, exponent)

/-- The floating point power of ten, for exponents up to 308. -/
def powerOfTen (n : Nat) : Float := Float.ofScientific 1 false n

/-- Multiplies by a power of ten, in steps when it is below the format's range. -/
def scaleBy : Nat → Float → Int → Option Float
  | 0, x, _ => some x
  | fuel + 1, x, exponent =>
    if exponent.natAbs ≤ 308 then
      if exponent < 0 then some (x / powerOfTen exponent.natAbs)
      else
        let y := x * powerOfTen exponent.natAbs
        if y.isInf then none else some y
    else if x == 0.0 then some x
    else if 0 ≤ exponent then none
    else scaleBy fuel (x / powerOfTen 308) (exponent + 308)

/-- The number that a document's spelling is read as; refused when too large. -/
def toFloat? (l : Literal) : Option Float :=
  let (significand, excess) := wholePart 0 l.whole
  let (significand, exponent) := fractionPart significand excess l.fraction
  (scaleBy 8 (Float.ofNat significand) (exponent + l.exponent)).map fun x =>
    if l.negative then -x else x

end Literal
end ReactiveLang.Number
