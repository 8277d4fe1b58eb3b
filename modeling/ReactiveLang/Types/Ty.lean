import ReactiveLang.Syntax.Node

/-!
# Types

The types that the analysis reasons about. Unlike an annotation, a type names structures by their
definitions, and it can say that a type could not be determined.
-/

namespace ReactiveLang

/-- Why a type could not be determined. Mirrors quill-analysis/ty:53-64. -/
inductive UnknownReason where
  /-- It depends on itself. -/
  | cycle
  /-- A name or property has no meaning. -/
  | unresolved
  /-- Its source was not understood. -/
  | unparsable
  /-- An input has neither annotation nor default. -/
  | unannotated
  /-- The operation is not defined on such operands. -/
  | unsupported
  deriving DecidableEq, Inhabited

/-- Mirrors quill-analysis/ty:20-49. -/
inductive Ty where
  | boolean
  | text
  /-- Numbers of a unit, or of any unit. -/
  | measurement (unit : Option MeasureUnit)
  | nothing
  | list (item : Ty)
  | set (item : Ty)
  | map (key value : Ty)
  /-- Instances of a structure, which its definition identifies. -/
  | instanceOf (definition : NodeId) (name : String)
  | function (inputs : List Ty) (output : Ty)
  | stream (item : Ty)
  | union (left right : Ty)
  /-- No value has this type. -/
  | never
  | unknown (reason : UnknownReason)
  deriving Inhabited

namespace Ty

mutual

/-- The same type, part by part. -/
def same : Ty → Ty → Bool
  | boolean, boolean | text, text | nothing, nothing | never, never => true
  | measurement u, measurement v => u = v
  | list a, list b | set a, set b | stream a, stream b => same a b
  | map k v, map k' v' => same k k' && same v v'
  | instanceOf d n, instanceOf d' n' => d = d' && n = n'
  | function inputs output, function inputs' output' => sameAll inputs inputs' && same output output'
  | union a b, union a' b' => same a a' && same b b'
  | unknown r, unknown r' => r = r'
  | _, _ => false

def sameAll : List Ty → List Ty → Bool
  | [], [] => true
  | a :: as, b :: bs => same a b && sameAll as bs
  | _, _ => false

end

mutual

theorem eq_of_same {a b : Ty} (h : same a b = true) : a = b := by
  cases a <;> cases b <;> simp only [same, Bool.false_eq_true, Bool.and_eq_true,
    decide_eq_true_eq] at h <;> try rfl
  case measurement => rw [h]
  case list => rw [eq_of_same h]
  case set => rw [eq_of_same h]
  case map => rw [eq_of_same h.1, eq_of_same h.2]
  case instanceOf => rw [h.1, h.2]
  case function => rw [eq_of_sameAll h.1, eq_of_same h.2]
  case stream => rw [eq_of_same h]
  case union => rw [eq_of_same h.1, eq_of_same h.2]
  case unknown => rw [h]

theorem eq_of_sameAll {as bs : List Ty} (h : sameAll as bs = true) : as = bs := by
  cases as <;> cases bs <;> simp only [sameAll, Bool.false_eq_true, Bool.and_eq_true] at h
  · rfl
  · rw [eq_of_same h.1, eq_of_sameAll h.2]

end

mutual

theorem same_self (a : Ty) : same a a = true := by
  cases a <;> simp only [same, Bool.and_eq_true, decide_eq_true_eq]
  case list => exact same_self _
  case set => exact same_self _
  case map => exact ⟨same_self _, same_self _⟩
  case instanceOf => exact ⟨trivial, trivial⟩
  case function => exact ⟨sameAll_self _, same_self _⟩
  case stream => exact same_self _
  case union => exact ⟨same_self _, same_self _⟩

theorem sameAll_self (as : List Ty) : sameAll as as = true := by
  cases as <;> simp only [sameAll, Bool.and_eq_true]
  exact ⟨same_self _, sameAll_self _⟩

end

theorem same_iff {a b : Ty} : same a b = true ↔ a = b :=
  ⟨eq_of_same, fun h => h ▸ same_self a⟩

instance : DecidableEq Ty := fun _ _ => decidable_of_iff _ same_iff

/-- The type of plain numbers. -/
def number : Ty := measurement (some .unitless)

/-- The members of a union, from left to right; any other type is its own only member. Mirrors
quill-analysis/ty:160-169 (`members`). -/
def members : Ty → List Ty
  | union a b => members a ++ members b
  | t => [t]

def isUnknown : Ty → Bool
  | unknown _ => true
  | _ => false

/-- The unit of a measurement of one unit. Mirrors quill-analysis/ty:189-194 (`unit`). -/
def unit? : Ty → Option MeasureUnit
  | measurement unit => unit
  | _ => none

mutual

/-- The type as it is shown. Mirrors quill-analysis/ty:201-229. -/
def render : Ty → String
  | boolean => "?"
  | text => "''"
  | measurement none => "#"
  | measurement (some unit) => "#" ++ unit.render
  | nothing => "ø"
  | list item => "[" ++ render item ++ "]"
  | set item => "\x7b" ++ render item ++ "\x7d"
  | map key value => "\x7b" ++ render key ++ ":" ++ render value ++ "\x7d"
  | instanceOf _ name => name
  | function inputs output => "ƒ(" ++ " ".intercalate (renderAll inputs) ++ ") " ++ render output
  | stream item => "…" ++ render item
  | union a b => render a ++ "|" ++ render b
  | never => "never"
  | unknown _ => "unknown"

def renderAll : List Ty → List String
  | [] => []
  | t :: rest => render t :: renderAll rest

end

end Ty
end ReactiveLang
