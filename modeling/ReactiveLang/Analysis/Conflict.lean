import ReactiveLang.Types.Ty

/-!
# Conflicts

A conflict is a finding about a node. It holds no text for users: each explanation names a
template, the node to show and the types that the template speaks of.
-/

namespace ReactiveLang

/-- Mirrors quill-analysis/conflict:19-43. -/
inductive ConflictKind where
  | unparsable
  | expectedEndingExpression
  | duplicateName
  | requiredAfterOptional
  | misplacedConversion
  | disallowedInputs
  | unknownName
  | unknownProperty
  | incompatibleBind
  | incompatibleOperand
  | expectedBooleanCondition
  | impossibleType
  | notAFunction
  | missingInput
  | tooManyInputs
  | incompatibleInput
  | notAList
  | unknownConversion
  | notAStream
  | unusedBind
  deriving DecidableEq, Inhabited

namespace ConflictKind

def all : List ConflictKind :=
  [unparsable, expectedEndingExpression, duplicateName, requiredAfterOptional, misplacedConversion,
   disallowedInputs, unknownName, unknownProperty, incompatibleBind, incompatibleOperand,
   expectedBooleanCondition, impossibleType, notAFunction, missingInput, tooManyInputs,
   incompatibleInput, notAList, unknownConversion, notAStream, unusedBind]

/-- The program has a shape that running it gives no meaning to. Any other conflict lets the program
run, perhaps to an exception. Mirrors quill-analysis/conflict:48-58 (`is_fatal`). -/
def isFatal : ConflictKind → Bool
  | unparsable | expectedEndingExpression | duplicateName | requiredAfterOptional
  | misplacedConversion | disallowedInputs => true
  | _ => false

/-- Mirrors quill-analysis/conflict:60-83. -/
def name : ConflictKind → String
  | unparsable => "Unparsable"
  | expectedEndingExpression => "ExpectedEndingExpression"
  | duplicateName => "DuplicateName"
  | requiredAfterOptional => "RequiredAfterOptional"
  | misplacedConversion => "MisplacedConversion"
  | disallowedInputs => "DisallowedInputs"
  | unknownName => "UnknownName"
  | unknownProperty => "UnknownProperty"
  | incompatibleBind => "IncompatibleBind"
  | incompatibleOperand => "IncompatibleOperand"
  | expectedBooleanCondition => "ExpectedBooleanCondition"
  | impossibleType => "ImpossibleType"
  | notAFunction => "NotAFunction"
  | missingInput => "MissingInput"
  | tooManyInputs => "TooManyInputs"
  | incompatibleInput => "IncompatibleInput"
  | notAList => "NotAList"
  | unknownConversion => "UnknownConversion"
  | notAStream => "NotAStream"
  | unusedBind => "UnusedBind"

def ofName? (name : String) : Option ConflictKind := all.find? fun k => k.name = name

end ConflictKind

/-- A request to explain one place of a conflict. Mirrors quill-analysis/conflict:98-106. -/
structure Explanation where
  node : NodeId
  template : String
  /-- The types the template speaks of, in its order. -/
  types : List Ty
  deriving DecidableEq

/-- What a host is asked to put into words: the template, the node and the types. -/
def Explanation.request (e : Explanation) : String :=
  e.template ++ "@" ++ e.node.render ++ "[" ++ ",".intercalate (e.types.map Ty.render) ++ "]"

/-- Mirrors quill-analysis/conflict:110-116. -/
structure Conflict where
  kind : ConflictKind
  primary : Explanation
  /-- A related place, such as the earlier of two declarations. -/
  secondary : Option Explanation
  fatal : Bool
  deriving DecidableEq

namespace Conflict

/-- A conflict on a node. Mirrors quill-analysis/conflict:119-130 (`new`). -/
def on (kind : ConflictKind) (node : NodeId) : Conflict :=
  ⟨kind, ⟨node, kind.name ++ ".primary", []⟩, none, kind.isFatal⟩

/-- The conflict with a related place. Mirrors
quill-analysis/conflict:134-141 (`with_secondary`). -/
def relatedTo (c : Conflict) (node : NodeId) : Conflict :=
  { c with secondary := some ⟨node, c.kind.name ++ ".secondary", []⟩ }

/-- The conflict with the types involved, for every explanation it has. Mirrors
quill-analysis/conflict:144-150 (`with_types`). -/
def withTypes (c : Conflict) (types : List Ty) : Conflict :=
  { c with
    primary := { c.primary with types }
    secondary := c.secondary.map fun e => { e with types } }

def node (c : Conflict) : NodeId := c.primary.node

/-- Mirrors quill-analysis/conflict:170-178. -/
def render (c : Conflict) : String :=
  c.kind.name ++ " at " ++ c.primary.node.render ++
    match c.secondary with
    | some e => " (see " ++ e.node.render ++ ")"
    | none => ""

/-- The conflicts on a node. -/
def ofNode (node : NodeId) (conflicts : List Conflict) : List Conflict :=
  conflicts.filter fun c => c.node = node

def ofKind (kind : ConflictKind) (conflicts : List Conflict) : List Conflict :=
  conflicts.filter fun c => c.kind = kind

def anyFatal (conflicts : List Conflict) : Bool := conflicts.any fun c => c.fatal

end Conflict
end ReactiveLang
