import ReactiveLang.Value.Basic

/-!
# The types of values
-/

namespace ReactiveLang.Value

/-- One type for all items of a collection. Mirrors quill-eval/value:231-233 (`item_type`). -/
def itemType (types : List Ty) : Ty := (Ty.unionOf? types).getD .never

/-- The type of a callable; those of the program's own definitions are not known at run time. -/
def callableType : Callable → Ty
  | .text method _ => method.signature.functionType
  | .stream kind => kind.signature.functionType
  | _ => .unknown .unsupported

mutual

/-- The type of a value at run time. Mirrors quill-eval/value:184-208 (`type_of`). -/
def typeOf (v : Value) : Ty :=
  match v with
  | nothing => .nothing
  | boolean _ => .boolean
  | text _ => .text
  | measurement _ unit => .measurement (some unit)
  | list items => .list (itemType (typesOf items))
  | set items => .set (itemType (typesOf items))
  | map entries => .map (itemType (keyTypes entries)) (itemType (contentTypes entries))
  | instanceOf object => .instanceOf object.definition object.name
  | stream _ => .stream (.unknown .unsupported)
  | function callable => callableType callable
  | exception _ _ => .unknown .unsupported
termination_by structural v

def typesOf (items : List Value) : List Ty :=
  match items with
  | [] => []
  | v :: rest => typeOf v :: typesOf rest
termination_by structural items

def keyTypes (entries : List (Value × Value)) : List Ty :=
  match entries with
  | [] => []
  | (k, _) :: rest => typeOf k :: keyTypes rest
termination_by structural entries

def contentTypes (entries : List (Value × Value)) : List Ty :=
  match entries with
  | [] => []
  | (_, v) :: rest => typeOf v :: contentTypes rest
termination_by structural entries

end

end ReactiveLang.Value
