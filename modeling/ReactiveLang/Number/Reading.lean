import ReactiveLang.Number.Shortest

/-!
# Reading numbers from text

`parse?` reads what a user may write for a number: an optional sign, digits with an optional
point among or around them, an optional exponent; or a word for infinity or for no number, in any
case. The result is the nearest number of the format.
-/

namespace ReactiveLang.Number

/-- Reads digits from the front: their value after `acc`, how many, and the rest. -/
def readDigits (acc count : Nat) : List Char → Nat × Nat × List Char
  | [] => (acc, count, [])
  | c :: rest =>
    if c.isDigit then readDigits (acc * 10 + (c.toNat - '0'.toNat)) (count + 1) rest
    else (acc, count, c :: rest)

/-- Rounds `digits · 10 ^ exponent` to the nearest number. Exponents far out of range are decided
without computing the power. -/
def nearest (digits : Nat) (exponent : Int) : Float :=
  let scale := (toString digits).length + exponent
  if digits = 0 ∨ scale < -400 then 0.0
  else if 400 < scale then 1.0 / 0.0
  else if exponent < 0 then Float.ofScientific digits true exponent.natAbs
  else Float.ofScientific (digits * Nat.pow 10 exponent.toNat) false 0

/-- The exponent after the letter `e`: an optional sign and at least one digit, up to the end. -/
def parseExponent? : List Char → Option Int
  | '-' :: rest => (unsigned? rest).map fun n => -n
  | '+' :: rest => unsigned? rest
  | rest => unsigned? rest
where
  unsigned? (cs : List Char) : Option Int :=
    match readDigits 0 0 cs with
    | (value, count, []) => if count = 0 then none else some value
    | _ => none

/-- A number without its sign. -/
def parseMagnitude? (cs : List Char) : Option Float :=
  let (whole, wholeCount, rest) := readDigits 0 0 cs
  let (digits, fractionCount, rest) :=
    match rest with
    | '.' :: rest => readDigits whole 0 rest
    | rest => (whole, 0, rest)
  if wholeCount + fractionCount = 0 then none
  else
    match rest with
    | [] => some (nearest digits (-fractionCount))
    | c :: rest =>
      if c = 'e' ∨ c = 'E' then
        (parseExponent? rest).map fun e => nearest digits (e - fractionCount)
      else none

/-- The words that stand for what digits cannot write. -/
def parseWord? (cs : List Char) : Option Float :=
  let word := String.ofList (cs.map Char.toLower)
  if word = "inf" ∨ word = "infinity" then some (1.0 / 0.0)
  else if word = "nan" then some (0.0 / 0.0)
  else none

def parseUnsigned? (cs : List Char) : Option Float :=
  (parseWord? cs).or (parseMagnitude? cs)

/-- The number written as `text`, all of it. -/
def parse? (text : String) : Option Float :=
  match text.toList with
  | '-' :: rest => (parseUnsigned? rest).map fun x => -x
  | '+' :: rest => parseUnsigned? rest
  | cs => parseUnsigned? cs

end ReactiveLang.Number
