/-!
# Binary floating point numbers as integers

A finite number of the 64-bit format is `± significand · 2 ^ exponent`. Everything that has to
be exact (digits, remainders, whole parts) is computed on these integers.
-/

namespace ReactiveLang.Number

/-- What the bits of a 64-bit number stand for. -/
inductive Binary64 where
  | notANumber
  | infinite (negative : Bool)
  | finite (negative : Bool) (significand : Nat) (exponent : Int)
  deriving DecidableEq, Inhabited

namespace Binary64

/-- The exponent of the smallest numbers. -/
def minExponent : Int := -1074

/-- Reads the sign, the eleven bits of exponent and the 52 bits of fraction. -/
def ofBits (bits : Nat) : Binary64 :=
  let negative : Bool := bits / Nat.pow 2 63 % 2 = 1
  let scale : Nat := bits / Nat.pow 2 52 % Nat.pow 2 11
  let fraction : Nat := bits % Nat.pow 2 52
  if scale = 2047 then
    if fraction = 0 then infinite negative else notANumber
  else if scale = 0 then finite negative fraction minExponent
  else finite negative (Nat.pow 2 52 + fraction) ((scale : Int) - 1075)

def ofFloat (x : Float) : Binary64 := ofBits x.toBits.toNat

end Binary64

/-- The number `± significand · 2 ^ exponent`, exact when the format holds it. -/
def scaled (negative : Bool) (significand : Nat) (exponent : Int) : Float :=
  let magnitude := (Float.ofNat significand).scaleB exponent
  if negative then -magnitude else magnitude

/-- The remainder of a division that rounds toward zero. It is exact and has the dividend's
sign; there is none for an infinite dividend or a zero divisor. -/
def remainder (dividend divisor : Float) : Float :=
  match Binary64.ofFloat dividend, Binary64.ofFloat divisor with
  | .finite negative m p, .finite _ n q =>
    if n = 0 then 0.0 / 0.0
    else
      let e := min p q
      scaled negative (m * Nat.pow 2 (p - e).toNat % (n * Nat.pow 2 (q - e).toNat)) e
  | .finite _ _ _, .infinite _ => dividend
  | _, _ => 0.0 / 0.0

/-- The whole number nearest to `x`, and of two the one farther from zero. -/
def rounded (x : Float) : Float :=
  match Binary64.ofFloat x with
  | .finite negative m e =>
    if 0 ≤ e then x
    else
      let one := Nat.pow 2 (-e).toNat
      let magnitude := Float.ofNat ((2 * m + one) / (2 * one))
      if negative then -magnitude else magnitude
  | _ => x

/-- The largest natural number not above `x`; zero where there is none, `none` for infinity. -/
def floorNat? (x : Float) : Option Nat :=
  match Binary64.ofFloat x with
  | .finite false m e =>
    some (if 0 ≤ e then m * Nat.pow 2 e.toNat else m / Nat.pow 2 (-e).toNat)
  | .infinite false => none
  | _ => some 0

/-- The natural number that `x` is, if it is one. -/
def toNat? (x : Float) : Option Nat :=
  match Binary64.ofFloat x with
  | .finite negative m e =>
    if m = 0 then some 0
    else if negative then none
    else if 0 ≤ e then some (m * Nat.pow 2 e.toNat)
    else if m % Nat.pow 2 (-e).toNat = 0 then some (m / Nat.pow 2 (-e).toNat) else none
  | _ => none

end ReactiveLang.Number
