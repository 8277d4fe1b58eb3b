import ReactiveLang.Number.Binary64

/-!
# The fewest digits that read back

`shortest` gives the decimal with the fewest digits among those that round to a given binary
number, and of several the one nearest to it. All comparisons are between natural numbers.
-/

namespace ReactiveLang.Number

/-- The decimal `digits · 10 ^ exponent`. -/
structure Decimal where
  digits : Nat
  exponent : Int
  deriving DecidableEq, Inhabited

/-- Which of two equally near decimals is taken. -/
inductive TieRule where
  | up
  | even
  deriving DecidableEq

/-- The fraction `numerator / denominator`. -/
structure Ratio where
  numerator : Nat
  denominator : Nat

/-- The number `significand · base ^ exponent` as a fraction. -/
def Ratio.ofPower (significand base : Nat) (exponent : Int) : Ratio :=
  if 0 ≤ exponent then ⟨significand * Nat.pow base exponent.toNat, 1⟩
  else ⟨significand, Nat.pow base (-exponent).toNat⟩

/-- The gap below a power of two is half the gap above it. -/
def narrowBelow (significand : Nat) (exponent : Int) : Bool :=
  significand = Nat.pow 2 52 && Binary64.minExponent < exponent

/-- `digits` units of `unit` round to `significand · 2 ^ exponent`: they lie between the middles
to the two neighbours, which belong to it when the significand is even. Everything is counted in
quarters of the gap. -/
def readsBack (significand : Nat) (exponent : Int) (unit : Ratio) (digits : Nat) : Bool :=
  let quarter := Ratio.ofPower 1 2 (exponent - 2)
  let point := digits * unit.numerator * quarter.denominator
  let bound (quarters : Nat) := quarters * quarter.numerator * unit.denominator
  let low := bound (4 * significand - if narrowBelow significand exponent then 1 else 2)
  let high := bound (4 * significand + 2)
  if significand % 2 = 0 then low ≤ point && point ≤ high else low < point && point < high

/-- The neighbours of the number on the grid of `unit`: the nearer one that reads back. -/
def nearestOnGrid? (tie : TieRule) (significand : Nat) (exponent : Int) (unit : Ratio) :
    Option Nat :=
  let value := Ratio.ofPower significand 2 exponent
  let below := value.numerator * unit.denominator / (value.denominator * unit.numerator)
  match readsBack significand exponent unit below, readsBack significand exponent unit (below + 1) with
  | false, false => none
  | true, false => some below
  | false, true => some (below + 1)
  | true, true =>
    let twice := 2 * value.numerator * unit.denominator
    let middle := (2 * below + 1) * unit.numerator * value.denominator
    if twice < middle then some below
    else if middle < twice then some (below + 1)
    else match tie with
      | .up => some (below + 1)
      | .even => some (if below % 2 = 0 then below else below + 1)

/-- The least `k` with `significand · 2 ^ exponent < 10 ^ k`, searched upward from `k`. -/
def magnitudeFrom (significand : Nat) (exponent : Int) : Nat → Int → Int
  | 0, k => k
  | fuel + 1, k =>
    let value := Ratio.ofPower significand 2 exponent
    let power := Ratio.ofPower 1 10 k
    if value.numerator * power.denominator < power.numerator * value.denominator then k
    else magnitudeFrom significand exponent fuel (k + 1)

/-- The number of digits before the point, for numbers from one up. The search starts from a
bound below: the binary logarithm times 0.30103, less two. -/
def magnitude (significand : Nat) (exponent : Int) : Int :=
  let bits : Int := significand.log2 + exponent
  magnitudeFrom significand exponent 8 (bits * 30103 / 100000 - 2)

/-- Searches the grids of `n`, `n + 1`, … digits; `count` of them are left. -/
def searchDigits (tie : TieRule) (significand : Nat) (exponent scale : Int) :
    Nat → Nat → Option Decimal
  | 0, _ => none
  | count + 1, n =>
    match nearestOnGrid? tie significand exponent (Ratio.ofPower 1 10 (scale - n)) with
    | some digits => some ⟨digits, scale - n⟩
    | none => searchDigits tie significand exponent scale count (n + 1)

/-- Moves trailing zeros of the digits into the exponent. -/
def Decimal.strip : Nat → Decimal → Decimal
  | 0, d => d
  | fuel + 1, d =>
    if d.digits ≠ 0 ∧ d.digits % 10 = 0 then strip fuel ⟨d.digits / 10, d.exponent + 1⟩ else d

/-- The exact decimal value of `significand · 2 ^ exponent`. -/
def exactDecimal (significand : Nat) (exponent : Int) : Decimal :=
  if 0 ≤ exponent then ⟨significand * Nat.pow 2 exponent.toNat, 0⟩
  else ⟨significand * Nat.pow 5 (-exponent).toNat, exponent⟩

/-- The decimal with the fewest digits that rounds to `significand · 2 ^ exponent`, nearest to it.
Seventeen digits always suffice. -/
def shortest (tie : TieRule) (significand : Nat) (exponent : Int) : Decimal :=
  if significand = 0 then ⟨0, 0⟩
  else
    let scale := magnitude significand exponent
    match searchDigits tie significand exponent scale 17 1 with
    | some d => d.strip 20
    | none => exactDecimal significand exponent

end ReactiveLang.Number
