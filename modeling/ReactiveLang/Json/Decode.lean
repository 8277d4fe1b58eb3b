import ReactiveLang.Json.Basic
import ReactiveLang.Number.Interchange

/-!
# Reading values from documents

A decoder gets the number of bracket levels it may still enter. A record is read from an object,
where unknown names are skipped and a repeated one is refused, or from an array of its fields in
order. A case without content is its name, or an object that gives `null` under that name; a case
with content is an object with that one name.
-/

namespace ReactiveLang.Json

/-- Bracket levels a document may have where its content is read. -/
def depthLimit : Nat := 127

def toText? : Json → Option String
  | text s => some s
  | _ => none

def toBool? : Json → Option Bool
  | bool b => some b
  | _ => none

def toInt? : Json → Option Int
  | number literal => (Number.Literal.ofSpelling literal).toInt?
  | _ => none

/-- A natural number below `bound`. -/
def toNatBelow? (bound : Nat) (j : Json) : Option Nat := do
  let i ← j.toInt?
  if 0 ≤ i ∧ i < bound then some i.toNat else none

/-- A signed number of 32 bits. -/
def toInt32? (j : Json) : Option Int := do
  let i ← j.toInt?
  if -Int.pow 2 31 ≤ i ∧ i < Int.pow 2 31 then some i else none

/-- A natural number of 32 bits. -/
def toNat32? : Json → Option Nat := toNatBelow? (Nat.pow 2 32)

/-- A natural number of 64 bits. -/
def toNat64? : Json → Option Nat := toNatBelow? (Nat.pow 2 64)

def toFloat? : Json → Option Float
  | number literal => (Number.Literal.ofSpelling literal).toFloat?
  | _ => none

/-- A case of an enumeration: its name and its content, which is absent or `null` for a case
without content. One level is entered for an object. -/
def toCase? (depth : Nat) : Json → Option (String × Option Json × Nat)
  | text name => some (name, none, depth)
  | object [(name, content)] =>
    match depth with
    | 0 => none
    | depth + 1 => some (name, some content, depth)
  | _ => none

/-- The name of a case without content. -/
def toBareCase? (depth : Nat) (j : Json) : Option String :=
  match j.toCase? depth with
  | some (name, none, _) => some name
  | some (name, some null, _) => some name
  | _ => none

/-- The items of an array, one level in. -/
def toItems? (depth : Nat) : Json → Option (List Json × Nat)
  | array items =>
    match depth with
    | 0 => none
    | depth + 1 => some (items, depth)
  | _ => none

/-- The contents of all members of that name. -/
def occurrences (name : String) (members : List (String × Json)) : List Json :=
  members.filterMap fun m => if m.1 = name then some m.2 else none

/-- The field of that name, absent or present once. -/
def field? (members : List (String × Json)) (name : String) : Option (Option Json) :=
  match occurrences name members with
  | [] => some none
  | [j] => some (some j)
  | _ => none

/-- The fields of a record, in the order of `names`, one level in. The flag tells whether they
were given by name. -/
def toFields? (names : List String) (depth : Nat) (j : Json) :
    Option (Bool × List (Option Json) × Nat) :=
  match depth, j with
  | depth + 1, object members => do
    let fields ← names.mapM (field? members)
    some (true, fields, depth)
  | depth + 1, array items =>
    if items.length ≤ names.length then
      some (false, items.map some ++ List.replicate (names.length - items.length) none, depth)
    else none
  | _, _ => none

end ReactiveLang.Json
