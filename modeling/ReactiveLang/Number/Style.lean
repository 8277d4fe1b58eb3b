import ReactiveLang.Number.Shortest

/-!
# Written numbers

A `Style` holds the decisions of a number format: where positional writing ends, what follows a
whole number, which of two equally near decimals is written, and the texts of what is no number.
-/

namespace ReactiveLang.Number

structure Style where
  tie : TieRule
  /-- Whether a number with so many digits before the point is written without an exponent. -/
  positional : Int → Bool
  /-- Follows a whole number that is written without an exponent. -/
  wholeSuffix : String
  notANumber : String
  infinite : Bool → String

namespace Style

/-- Digits without an exponent. -/
def layoutPositional (style : Style) (d : Decimal) : String :=
  let digits := (toString d.digits).toList
  let scale := digits.length + d.exponent
  if 0 ≤ d.exponent then
    String.ofList (digits ++ List.replicate d.exponent.toNat '0') ++ style.wholeSuffix
  else if 0 < scale then
    String.ofList (digits.take scale.toNat ++ '.' :: digits.drop scale.toNat)
  else String.ofList ('0' :: '.' :: (List.replicate (-scale).toNat '0' ++ digits))

/-- One digit before the point, then a signed exponent. -/
def layoutExponent (d : Decimal) : String :=
  let digits := (toString d.digits).toList
  let power := digits.length + d.exponent - 1
  let fraction := digits.drop 1
  String.ofList (digits.take 1 ++ if fraction.isEmpty then [] else '.' :: fraction) ++ "e" ++
    (if power < 0 then "-" else "+") ++ toString power.natAbs

def layout (style : Style) (d : Decimal) : String :=
  if style.positional ((toString d.digits).length + d.exponent) then style.layoutPositional d
  else layoutExponent d

/-- The text of a number; a negative zero keeps its sign. -/
def render (style : Style) (x : Float) : String :=
  match Binary64.ofFloat x with
  | .notANumber => style.notANumber
  | .infinite negative => style.infinite negative
  | .finite negative significand exponent =>
    (if negative then "-" else "") ++ style.layout (shortest style.tie significand exponent)

/-- Numbers in values are written without an exponent, whatever their size. -/
def plain : Style where
  tie := .up
  positional _ := true
  wholeSuffix := ""
  notANumber := "NaN"
  infinite negative := if negative then "-inf" else "inf"

/-- Numbers in interchanged documents have a point or an exponent, which is used below `10 ^ -5`
and from `10 ^ 16` on. What is no finite number is written `null`. -/
def interchange : Style where
  tie := .even
  positional scale := -5 < scale && scale ≤ 16
  wholeSuffix := ".0"
  notANumber := "null"
  infinite _ := "null"

end Style
end ReactiveLang.Number
