import ReactiveLang.Json.Basic

/-!
# Reading JSON

`read?` accepts exactly one document with blanks around it. The functions below take characters
from the front and give back the rest; `fuel` bounds the number of nested calls, and the length
of the text is enough of it.
-/

namespace ReactiveLang.Json

def skipBlanks : List Char → List Char
  | c :: rest =>
    if c = ' ' ∨ c = '\n' ∨ c = '\t' ∨ c = '\r' then skipBlanks rest else c :: rest
  | [] => []

def hexValue? (c : Char) : Option Nat :=
  if '0' ≤ c ∧ c ≤ '9' then some (c.toNat - '0'.toNat)
  else if 'a' ≤ c ∧ c ≤ 'f' then some (c.toNat - 'a'.toNat + 10)
  else if 'A' ≤ c ∧ c ≤ 'F' then some (c.toNat - 'A'.toNat + 10)
  else none

/-- Four hexadecimal digits. -/
def readHex? : List Char → Option (Nat × List Char)
  | a :: b :: c :: d :: rest => do
    let a ← hexValue? a
    let b ← hexValue? b
    let c ← hexValue? c
    let d ← hexValue? d
    some (((a * 16 + b) * 16 + c) * 16 + d, rest)
  | _ => none

/-- The character that a one-letter escape stands for. -/
def escaped? : Char → Option Char
  | '"' => some '"'
  | '\\' => some '\\'
  | '/' => some '/'
  | 'b' => some (Char.ofNat 8)
  | 'f' => some (Char.ofNat 12)
  | 'n' => some '\n'
  | 'r' => some '\r'
  | 't' => some '\t'
  | _ => none

def isHighSurrogate (n : Nat) : Bool := 0xD800 ≤ n && n < 0xDC00

def isLowSurrogate (n : Nat) : Bool := 0xDC00 ≤ n && n < 0xE000

/-- The low half that has to follow a high one. -/
def readLowSurrogate? : List Char → Option (Nat × List Char)
  | '\\' :: 'u' :: rest =>
    match readHex? rest with
    | some (n, rest) => if isLowSurrogate n then some (n, rest) else none
    | none => none
  | _ => none

/-- The character of a numeric escape: `none` inside for half of a pair alone. -/
def readCodeUnit? (cs : List Char) : Option (Option Char × List Char) := do
  let (n, rest) ← readHex? cs
  if isHighSurrogate n then
    match readLowSurrogate? rest with
    | some (low, rest) =>
      some (some (Char.ofNat (0x10000 + (n - 0xD800) * 0x400 + (low - 0xDC00))), rest)
    | none => some (none, rest)
  else if isLowSurrogate n then some (none, rest)
  else some (some (Char.ofNat n), rest)

/-- A string after its opening quote: `none` inside if it is no text. The characters read so far
are in `acc`, last first; `sound` says that all of them were characters. -/
def readString? : Nat → Bool → List Char → List Char → Option (Option String × List Char)
  | 0, _, _, _ => none
  | fuel + 1, sound, acc, cs =>
    match cs with
    | [] => none
    | '"' :: rest => some (if sound then some (String.ofList acc.reverse) else none, rest)
    | '\\' :: 'u' :: rest =>
      match readCodeUnit? rest with
      | none => none
      | some (some c, rest) => readString? fuel sound (c :: acc) rest
      | some (none, rest) => readString? fuel false acc rest
    | '\\' :: e :: rest =>
      match escaped? e with
      | none => none
      | some c => readString? fuel sound (c :: acc) rest
    | c :: rest => if c.toNat < 32 ∨ c = '\\' then none else readString? fuel sound (c :: acc) rest

/-- At least one digit. -/
def readDigits? (cs : List Char) : Option (List Char × List Char) :=
  let digits := cs.takeWhile Char.isDigit
  if digits.isEmpty then none else some (digits, cs.dropWhile Char.isDigit)

/-- The whole part: zero alone, or digits that do not start with zero. -/
def readWhole? (cs : List Char) : Option (List Char × List Char) :=
  match readDigits? cs with
  | some ('0' :: _ :: _, _) => none
  | other => other

def readFraction? : List Char → Option (List Char × List Char)
  | '.' :: rest => (readDigits? rest).map fun p => ('.' :: p.1, p.2)
  | rest => some ([], rest)

def readExponent? : List Char → Option (List Char × List Char)
  | c :: rest =>
    if c = 'e' ∨ c = 'E' then
      match rest with
      | s :: rest' =>
        if s = '+' ∨ s = '-' then (readDigits? rest').map fun p => (c :: s :: p.1, p.2)
        else (readDigits? rest).map fun p => (c :: p.1, p.2)
      | [] => none
    else some ([], c :: rest)
  | [] => some ([], [])

/-- The spelling of a number. -/
def readNumber? (cs : List Char) : Option (List Char × List Char) := do
  let (sign, rest) := match cs with
    | '-' :: rest => (['-'], rest)
    | rest => ([], rest)
  let (whole, rest) ← readWhole? rest
  let (fraction, rest) ← readFraction? rest
  let (exponent, rest) ← readExponent? rest
  some (sign ++ whole ++ fraction ++ exponent, rest)

/-- The word `word` at the front. -/
def readWord? (word : List Char) (cs : List Char) : Option (List Char) :=
  if cs.take word.length = word then some (cs.drop word.length) else none

/-- An object is sound if all its names are texts. -/
def ofMembers (members : List (Option String × Json)) : Json :=
  if members.all fun m => m.1.isSome then object (members.map fun m => (m.1.getD "", m.2))
  else malformed

mutual

/-- A document at the front, after blanks. -/
def readValue? : Nat → List Char → Option (Json × List Char)
  | 0, _ => none
  | fuel + 1, cs =>
    match skipBlanks cs with
    | [] => none
    | '[' :: rest =>
      match skipBlanks rest with
      | ']' :: rest => some (array [], rest)
      | rest => (readItems? fuel rest).map fun p => (array p.1, p.2)
    | '{' :: rest =>
      match skipBlanks rest with
      | '}' :: rest => some (object [], rest)
      | rest => (readMembers? fuel rest).map fun p => (ofMembers p.1, p.2)
    | '"' :: rest =>
      (readString? (rest.length + 1) true [] rest).map fun p =>
        (match p.1 with | some s => text s | none => malformed, p.2)
    | 'n' :: rest => (readWord? "ull".toList rest).map fun rest => (null, rest)
    | 't' :: rest => (readWord? "rue".toList rest).map fun rest => (bool true, rest)
    | 'f' :: rest => (readWord? "alse".toList rest).map fun rest => (bool false, rest)
    | cs => (readNumber? cs).map fun p => (number (String.ofList p.1), p.2)

/-- One or more items, and the bracket that ends them. -/
def readItems? : Nat → List Char → Option (List Json × List Char)
  | 0, _ => none
  | fuel + 1, cs =>
    match readValue? fuel cs with
    | none => none
    | some (j, rest) =>
      match skipBlanks rest with
      | ',' :: rest => (readItems? fuel rest).map fun p => (j :: p.1, p.2)
      | ']' :: rest => some ([j], rest)
      | _ => none

/-- One or more members, and the brace that ends them. -/
def readMembers? : Nat → List Char → Option (List (Option String × Json) × List Char)
  | 0, _ => none
  | fuel + 1, cs =>
    match skipBlanks cs with
    | '"' :: rest =>
      match readString? (rest.length + 1) true [] rest with
      | none => none
      | some (name, rest) =>
        match skipBlanks rest with
        | ':' :: rest =>
          match readValue? fuel rest with
          | none => none
          | some (j, rest) =>
            match skipBlanks rest with
            | ',' :: rest => (readMembers? fuel rest).map fun p => ((name, j) :: p.1, p.2)
            | '}' :: rest => some ([(name, j)], rest)
            | _ => none
        | _ => none
    | _ => none

end

/-- The one document that the text holds. -/
def read? (source : String) : Option Json :=
  let cs := source.toList
  match readValue? (2 * cs.length + 2) cs with
  | some (j, rest) => if (skipBlanks rest).isEmpty then some j else none
  | none => none

end ReactiveLang.Json
