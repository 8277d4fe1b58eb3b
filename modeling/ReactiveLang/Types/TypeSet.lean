import ReactiveLang.Types.Accepts

/-!
# Sets of types

Membership is compatibility: a type that some member accepts is in the set, and adding it changes
nothing. Members stay in the order in which they were added.
-/

namespace ReactiveLang

/-- Mirrors quill-analysis/type_set:12-14. -/
structure TypeSet where
  types : List Ty
  deriving DecidableEq, Inhabited

namespace TypeSet

def empty : TypeSet := ⟨[]⟩

/-- Some member accepts the type. Mirrors quill-analysis/type_set:41-43 (`contains`). -/
def contains (s : TypeSet) (t : Ty) : Bool := s.types.any fun member => member.accepts t

/-- Adds a type that no member accepts yet. Mirrors quill-analysis/type_set:34-38 (`insert`). -/
def insert (s : TypeSet) (t : Ty) : TypeSet :=
  if s.contains t then s else ⟨s.types ++ [t]⟩

def ofList (types : List Ty) : TypeSet := types.foldl insert empty

/-- The members of a union, or the type alone. -/
def ofType (t : Ty) : TypeSet := ofList t.members

def size (s : TypeSet) : Nat := s.types.length

def isEmpty (s : TypeSet) : Bool := s.types.isEmpty

def union (a b : TypeSet) : TypeSet := ofList (a.types ++ b.types)

/-- The members of `a` that `b` contains. Mirrors quill-analysis/type_set:62-69 (`intersection`). -/
def intersection (a b : TypeSet) : TypeSet := ofList (a.types.filter b.contains)

/-- The members of `a` that `b` does not contain. Mirrors quill-analysis/type_set:72-79
(`difference`). -/
def difference (a b : TypeSet) : TypeSet := ofList (a.types.filter fun t => !b.contains t)

/-- A union of types that is nested to the right. Mirrors quill-analysis/type_set:83-89 (`fold`). -/
def foldTypes : List Ty → Ty
  | [] => .never
  | [t] => t
  | t :: rest => .union t (foldTypes rest)

/-- The set as one type. -/
def fold (s : TypeSet) : Ty := foldTypes s.types

end TypeSet

/-- One type for several: those that no earlier one accepts, as a union. There is none for no types.
Mirrors quill-analysis/ty:102-109 (`union_of`). -/
def Ty.unionOf? (types : List Ty) : Option Ty :=
  let s := TypeSet.ofList types
  if s.isEmpty then none else some s.fold

end ReactiveLang
