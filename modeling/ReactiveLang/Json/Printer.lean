import ReactiveLang.Json.Basic

/-!
# Writing JSON

`compact` writes a document without blanks, `pretty` with one member to a line. Both escape what
has to be escaped and nothing else.
-/

namespace ReactiveLang.Json

def hexDigit (n : Nat) : Char := "0123456789abcdef".toList.getD n '0'

/-- A control character by its short form if it has one, else by its number. -/
def escapeChar (c : Char) : List Char :=
  if c = '"' then ['\\', '"']
  else if c = '\\' then ['\\', '\\']
  else if 32 ≤ c.toNat then [c]
  else
    match c.toNat with
    | 8 => ['\\', 'b']
    | 9 => ['\\', 't']
    | 10 => ['\\', 'n']
    | 12 => ['\\', 'f']
    | 13 => ['\\', 'r']
    | n => ['\\', 'u', '0', '0', hexDigit (n / 16), hexDigit (n % 16)]

def quote (s : String) : String :=
  "\"" ++ String.ofList (s.toList.flatMap escapeChar) ++ "\""

mutual

/-- The document without blanks. -/
def compact : Json → String
  | null => "null"
  | bool b => if b then "true" else "false"
  | number literal => literal
  | text s => quote s
  | array items => "[" ++ ",".intercalate (compactItems items) ++ "]"
  | object members => "\x7b" ++ ",".intercalate (compactMembers members) ++ "\x7d"
  | malformed => "null"

def compactItems : List Json → List String
  | [] => []
  | j :: rest => compact j :: compactItems rest

def compactMembers : List (String × Json) → List String
  | [] => []
  | (name, j) :: rest => (quote name ++ ":" ++ compact j) :: compactMembers rest

end

/-- A line break and two blanks for each level. -/
def lineBreak (depth : Nat) : String := "\n" ++ "".pushn ' ' (2 * depth)

/-- Encloses parts that each stand on a line of their own. -/
def enclose (opening closing : String) (depth : Nat) (parts : List String) : String :=
  if parts.isEmpty then opening ++ closing
  else
    opening ++ lineBreak (depth + 1) ++ ("," ++ lineBreak (depth + 1)).intercalate parts ++
      lineBreak depth ++ closing

mutual

/-- The document with one item or member to a line, `depth` levels in. -/
def prettyAt : Nat → Json → String
  | depth, array items => enclose "[" "]" depth (prettyItems (depth + 1) items)
  | depth, object members => enclose "\x7b" "\x7d" depth (prettyMembers (depth + 1) members)
  | _, null => "null"
  | _, bool b => if b then "true" else "false"
  | _, number literal => literal
  | _, text s => quote s
  | _, malformed => "null"

def prettyItems : Nat → List Json → List String
  | _, [] => []
  | depth, j :: rest => prettyAt depth j :: prettyItems depth rest

def prettyMembers : Nat → List (String × Json) → List String
  | _, [] => []
  | depth, (name, j) :: rest =>
    (quote name ++ ": " ++ prettyAt depth j) :: prettyMembers depth rest

end

def pretty (j : Json) : String := prettyAt 0 j

end ReactiveLang.Json
