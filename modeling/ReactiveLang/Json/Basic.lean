/-!
# JSON documents

A document as its text shows it: numbers keep their spelling, objects their order and their
repeated names.
-/

namespace ReactiveLang

inductive Json where
  | null
  | bool (b : Bool)
  /-- A number as it is spelled. -/
  | number (literal : String)
  | text (s : String)
  | array (items : List Json)
  | object (members : List (String × Json))
  /-- A string, or an object with such a name, that spells half of a surrogate pair: its place in
  the document is clear, its content is no text. -/
  | malformed
  deriving Inhabited

namespace Json

def nat (n : Nat) : Json := number (toString n)

def int (i : Int) : Json := number (toString i)

/-- The first member of that name; absent in what is no object. -/
def member? (j : Json) (name : String) : Option Json :=
  match j with
  | object members => members.lookup name
  | _ => none

end Json
end ReactiveLang
