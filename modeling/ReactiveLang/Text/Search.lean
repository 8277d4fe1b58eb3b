/-!
# Parts of texts

Cutting a text at every occurrence of a delimiter, and looking for one text in another.
-/

namespace ReactiveLang.Text

/-- The rest after `pattern` when the text starts with it. -/
def afterStart? : List Char → List Char → Option (List Char)
  | [], text => some text
  | _, [] => none
  | p :: pattern, c :: text => if p = c then afterStart? pattern text else none

/-- Some place in the text starts with `pattern`. -/
def occurs (pattern : List Char) : List Char → Bool
  | [] => pattern.isEmpty
  | c :: text => (afterStart? pattern (c :: text)).isSome || occurs pattern text

/-- Cuts at each occurrence of a delimiter, from the left and without overlap. `skip` characters
still belong to the delimiter found last, and `part` holds the current part, last character
first. -/
def cutFrom (delimiter : List Char) : Nat → List Char → List Char → List (List Char)
  | _, part, [] => [part.reverse]
  | skip + 1, part, _ :: text => cutFrom delimiter skip part text
  | 0, part, c :: text =>
    match afterStart? delimiter (c :: text) with
    | some _ => part.reverse :: cutFrom delimiter (delimiter.length - 1) [] text
    | none => cutFrom delimiter 0 (c :: part) text

/-- The parts between the occurrences of a delimiter; an empty one cuts at every character. -/
def segments (delimiter text : String) : List String :=
  if delimiter.isEmpty then text.toList.map String.singleton
  else (cutFrom delimiter.toList 0 [] text.toList).map String.ofList

/-- Whether `part` is found somewhere in `text`. -/
def has (text part : String) : Bool := occurs part.toList text.toList

end ReactiveLang.Text
