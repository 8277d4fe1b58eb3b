import ReactiveLang.Value.Basic

/-!
# Equality of values

Lists are compared in order, sets and maps without regard to it. Two instances are equal when they
are of one structure and their inputs are equal; streams and callables are compared by identity,
numbers as floating point numbers.
-/

namespace ReactiveLang.Value

mutual

/-- The two values are equal. Mirrors quill-eval/value:153-181 (`is_equal_to`). -/
def same (a b : Value) : Bool :=
  match a, b with
  | nothing, nothing => true
  | boolean x, boolean y => x = y
  | text s, text r => s = r
  | measurement x u, measurement y v => x == y && u = v
  | list xs, list ys => xs.length = ys.length && sameItems xs ys
  | set xs, set ys => xs.length = ys.length && allIn xs ys
  | map xs, map ys => xs.length = ys.length && entriesIn xs ys
  | instanceOf x, instanceOf y => sameInstance x y
  | exception k n, exception l m => sameKind k l && n = m
  | stream i, stream j => i = j
  | function f, function g => f = g
  | _, _ => false
termination_by structural a

/-- Item by item, as far as both lists go. -/
def sameItems (xs ys : List Value) : Bool :=
  match xs, ys with
  | x :: xs, y :: ys => same x y && sameItems xs ys
  | _, _ => true
termination_by structural xs

/-- Every item of the first list equals one of the second. -/
def allIn (xs ys : List Value) : Bool :=
  match xs with
  | [] => true
  | x :: xs => (ys.any fun y => same x y) && allIn xs ys
termination_by structural xs

/-- Every entry of the first list equals one of the second, key and value. -/
def entriesIn (xs ys : List (Value × Value)) : Bool :=
  match xs with
  | [] => true
  | (k, v) :: xs => (ys.any fun y => same k y.1 && same v y.2) && entriesIn xs ys
termination_by structural xs

/-- The same structure with equal inputs. Mirrors quill-eval/structure:76-85 (`is_equal_to`). -/
def sameInstance (x y : Instance Value) : Bool :=
  match x with
  | ⟨definition, _, _, inputs, bindings⟩ =>
    definition = y.definition &&
      inputs.all fun input => sameAt bindings input (y.bindings.lookup input)
termination_by structural x

/-- What is bound to the name equals the other value, or both are missing. -/
def sameAt (bindings : List (String × Value)) (name : String) (other : Option Value) : Bool :=
  match bindings with
  | [] => other.isNone
  | (n, v) :: rest =>
    if name = n then
      match other with
      | some w => same v w
      | none => false
    else sameAt rest name other
termination_by structural bindings

def sameKind (k l : ExceptionKind Value) : Bool :=
  match k, l with
  | .nameNotFound m, .nameNotFound n => m = n
  | .typeMismatch t v, .typeMismatch s w => t = s && same v w
  | .conversionNotFound a b, .conversionNotFound c d => a = c && b = d
  | .stepLimit, .stepLimit => true
  | .callDepthLimit, .callDepthLimit => true
  | .evaluationLimit f, .evaluationLimit g => f = g
  | .valueRequired m, .valueRequired n => m = n
  | .textTooLong m, .textTooLong n => m = n
  | .unparsable, .unparsable => true
  | _, _ => false
termination_by structural k

end

/-- Adds an item that equals none before it. -/
def addItem (items : List Value) (item : Value) : List Value :=
  if items.any fun u => u.same item then items else items ++ [item]

/-- A set of the items; of equal ones the first stays. Mirrors quill-eval/value:78-86 (`set`). -/
def setOf (items : List Value) : Value := set (items.foldl addItem [])

/-- Puts a value under a key: in place of the one it has, or at the end. -/
def putEntry : List (Value × Value) → Value × Value → List (Value × Value)
  | [], entry => [entry]
  | (k, v) :: rest, entry =>
    if k.same entry.1 then (k, entry.2) :: rest else (k, v) :: putEntry rest entry

/-- A map of the entries; of equal keys the first stays, with the last value. Mirrors
quill-eval/value:89-98 (`map`). -/
def mapOf (entries : List (Value × Value)) : Value := map (entries.foldl putEntry [])

end ReactiveLang.Value
