import ReactiveLang.Keyed

/-!
# Units of measure

A unit is a product of named dimensions raised to integer powers: `ms`, `m/s`, `kg·m^2`. The
units built by `ofExponents`, `product`, `quotient` and `inverse` from such units are canonical:
their dimensions ascend and no exponent is zero.
-/

namespace ReactiveLang

/-- The exponents of the dimensions, by name. The empty list is unitless. Mirrors
quill-types/unit:11-13. -/
structure MeasureUnit where
  exponents : List (String × Int)
  deriving DecidableEq, Inhabited

namespace MeasureUnit

/-- The unit of plain numbers. -/
def unitless : MeasureUnit := ⟨[]⟩

def isUnitless (u : MeasureUnit) : Bool := u.exponents.isEmpty

/-- The power of `dimension` in `u`, zero where it does not occur. -/
def exponent (u : MeasureUnit) (dimension : String) : Int :=
  (u.exponents.lookup dimension).getD 0

/-- Adds `power` to the exponent of `dimension`. -/
def raise (entries : List (String × Int)) (dimension : String) (power : Int) :
    List (String × Int) :=
  Keyed.insert dimension ((entries.lookup dimension).getD 0 + power) entries

/-- Leaves out the dimensions that cancelled. -/
def ofEntries (entries : List (String × Int)) : MeasureUnit :=
  ⟨entries.filter fun e => e.2 ≠ 0⟩

/-- Repeated dimensions add up. Mirrors quill-types/unit:27-34 (`from_exponents`). -/
def ofExponents (pairs : List (String × Int)) : MeasureUnit :=
  ofEntries (pairs.foldl (fun entries p => raise entries p.1 p.2) [])

/-- A single dimension to the first power. Mirrors quill-types/unit:22-24 (`of`). -/
def ofDimension (dimension : String) : MeasureUnit := ofExponents [(dimension, 1)]

/-- The unit of `a × b`. Mirrors quill-types/unit:45-52 (`product`). -/
def product (a b : MeasureUnit) : MeasureUnit :=
  ofEntries (b.exponents.foldl (fun entries p => raise entries p.1 p.2) a.exponents)

/-- Mirrors quill-types/unit:59-67 (`inverse`). -/
def inverse (u : MeasureUnit) : MeasureUnit :=
  ⟨u.exponents.map fun e => (e.1, -e.2)⟩

/-- The unit of `a ÷ b`. Mirrors quill-types/unit:55-57 (`quotient`). -/
def quotient (a b : MeasureUnit) : MeasureUnit := a.product b.inverse

/-- One factor as it is written: the power is left out when it is one. -/
def factor (dimension : String) (power : Int) : String :=
  if power = 1 then dimension else dimension ++ "^" ++ toString power

/-- The factors above the line joined by dots, then those below it after a stroke. Mirrors
quill-types/unit:70-103. -/
def render (u : MeasureUnit) : String :=
  let above := u.exponents.filter fun e => e.2 > 0
  let below := u.exponents.filter fun e => e.2 < 0
  "·".intercalate (above.map fun e => factor e.1 e.2) ++
    if below.isEmpty then ""
    else "/" ++ "·".intercalate (below.map fun e => factor e.1 (-e.2))

end MeasureUnit
end ReactiveLang
