/-!
# Blank characters

The 25 code points with the Unicode property White_Space, and trimming by them.
-/

namespace ReactiveLang.Text

/-- The White_Space code points beyond the ranges `9`–`13` and `0x2000`–`0x200A`. -/
def scatteredBlanks : List Nat :=
  [0x20, 0x85, 0xA0, 0x1680, 0x2028, 0x2029, 0x202F, 0x205F, 0x3000]

def isBlank (c : Char) : Bool :=
  let n := c.toNat
  (9 ≤ n && n ≤ 13) || (0x2000 ≤ n && n ≤ 0x200A) || scatteredBlanks.contains n

/-- Drops blanks from both ends. -/
def trim (text : String) : String :=
  String.ofList (((text.toList.dropWhile isBlank).reverse.dropWhile isBlank).reverse)

end ReactiveLang.Text
