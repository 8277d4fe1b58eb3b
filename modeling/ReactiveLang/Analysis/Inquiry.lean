import ReactiveLang.Analysis.Conversion

/-!
# Questions that need the types of other nodes

An `Inquiry` is a computation that asks for the types of nodes, and for what references stand for,
before it answers. Who follows it decides how the questions are answered: from a table of types, or
by a context that works them out when they are asked and remembers them.
-/

namespace ReactiveLang

/-- A stream as an operand stands for the values that it carries. -/
def Ty.carried : Ty → Ty
  | .stream item => item
  | other => other

inductive Inquiry (α : Type) where
  | answer (value : α)
  | typeOf (id : NodeId) (next : Ty → Inquiry α)
  | resolve (reference : NodeId) (next : Option Definition → Inquiry α)

namespace Inquiry

variable {α β : Type}

/-- One inquiry and then another. -/
def bind (first : Inquiry α) (rest : α → Inquiry β) : Inquiry β :=
  match first with
  | answer value => rest value
  | typeOf id next => typeOf id fun type => (next type).bind rest
  | resolve reference next => resolve reference fun found => (next found).bind rest

instance : Monad Inquiry where
  pure := answer
  bind := Inquiry.bind

/-- Answers the questions one after the other. -/
def follow {m : Type → Type} [Monad m] (types : NodeId → m Ty)
    (definitions : NodeId → m (Option Definition)) : Inquiry α → m α
  | answer value => pure value
  | typeOf id next => do
    let type ← types id
    follow types definitions (next type)
  | resolve reference next => do
    let found ← definitions reference
    follow types definitions (next found)

/-- Asks for the type of a node. -/
def ask (id : NodeId) : Inquiry Ty := typeOf id answer

/-- Asks what a reference stands for. -/
def lookUp (reference : NodeId) : Inquiry (Option Definition) := resolve reference answer

variable (t : Tree)

/-- The type of a node's value as an operand. Mirrors
quill-analysis/context:311-316 (`value_type`). -/
def valueType (id : NodeId) : Inquiry Ty := do
  let type ← ask id
  pure type.carried

/-- What a bind declares: its annotation, else the type of its value. Mirrors
quill-analysis/context:118-130 (`declared_type`). -/
def declaredType (bind : NodeId) : Inquiry Ty :=
  match t.construct bind with
  | .binding _ (some annotation) _ => pure (t.annotationType bind annotation)
  | .binding _ none (some value) => ask value
  | .binding _ none none => pure (.unknown .unannotated)
  | _ => ask bind

/-- The member of a structure that a property reads. Mirrors quill-analysis/context:380-390
(`member_of`). -/
def memberOf (access : NodeId) : Inquiry (Option NodeId) :=
  match t.construct access with
  | .property subject name => do
    match ← valueType subject with
    | .instanceOf definition _ => pure (t.structureMember? definition name)
    | _ => pure none
  | _ => pure none

/-- The bind that an expression reads, by name or as a property. Mirrors
quill-analysis/context:394-405 (`binding_of`). -/
def bindingOf (expression : NodeId) : Inquiry (Option NodeId) :=
  match t.construct expression with
  | .reference _ => do
    match ← lookUp expression with
    | some (.binding bind) => pure (some bind)
    | _ => pure none
  | .property _ _ => do
    let member ← memberOf t expression
    pure (member.filter t.isBinding)
  | _ => pure none

/-- The definition that a reference or a property reads. Mirrors quill-analysis/context:412-416. -/
def referent? (id : NodeId) : Inquiry (Option NodeId) :=
  match t.construct id with
  | .reference _ => do
    let found ← lookUp id
    pure (found.bind Definition.node?)
  | .property _ _ => memberOf t id
  | _ => pure none

/-! ## Narrowing

Inside `x•A ? yes no`, reading `x` in `yes` sees only those members of its declared type that `A`
accepts, and in `no` only the others. -/

/-- Some type test among the nodes reads the bind. Mirrors quill-analysis/narrowing:55-60
(`tests_bind`). -/
def anyTests (bind : NodeId) : List NodeId → Inquiry Bool
  | [] => pure false
  | id :: rest =>
    match t.construct id with
    | .typeTest expression _ => do
      let read ← bindingOf t expression
      if read = some bind then pure true else anyTests bind rest
    | _ => anyTests bind rest

/-- The conditionals among some ancestors that hold `access` in a branch and test the bind, each
with whether the branch is `yes`; the outermost first. Mirrors quill-analysis/narrowing:35-52
(`guards`). -/
def guards (access bind : NodeId) : List NodeId → Inquiry (List (NodeId × Bool))
  | [] => pure []
  | ancestor :: rest =>
    match t.construct ancestor with
    | .conditional condition yes no => do
      let inYes := t.isWithin access yes
      if !inYes && !t.isWithin access no then guards access bind rest
      else
        let tests ← anyTests t bind (t.descendants condition)
        let outer ← guards access bind rest
        pure (if tests then outer ++ [(condition, inYes)] else outer)
    | _ => guards access bind rest

/-- What is left of the possible types when a condition has come out as `truth`. Both sides of a
true `&` hold, and both sides of a false `|` fail. Mirrors quill-analysis/narrowing:63-105
(`refine`). -/
def refine (bind : NodeId) : Nat → NodeId → Bool → TypeSet → Inquiry TypeSet
  | 0, _, _, possible => pure possible
  | fuel + 1, condition, truth, possible =>
    match t.construct condition with
    | .typeTest expression annotation => do
      let read ← bindingOf t expression
      if read = some bind then
        let tested := TypeSet.ofType (t.annotationType condition annotation)
        pure (if truth then possible.intersection tested else possible.difference tested)
      else pure possible
    | .unary .not operand => refine bind fuel operand (!truth) possible
    | .binary left .and right =>
      if truth then do
        let possible ← refine bind fuel left true possible
        refine bind fuel right true possible
      else pure possible
    | .binary left .or right =>
      if truth then pure possible
      else do
        let possible ← refine bind fuel left false possible
        refine bind fuel right false possible
    | _ => pure possible

/-- Refines by one guard after the other. -/
def refineAll (bind : NodeId) : List (NodeId × Bool) → TypeSet → Inquiry TypeSet
  | [], possible => pure possible
  | (condition, inYes) :: rest, possible => do
    let possible ← refine t bind t.nodes.size condition inYes possible
    refineAll bind rest possible

/-- The type of a bind where it is read; only a union can be narrowed. Mirrors
quill-analysis/narrowing:17-30 (`narrow`). -/
def narrow (access bind : NodeId) (declared : Ty) : Inquiry Ty :=
  match declared with
  | .union _ _ => do
    let guards ← guards t access bind (t.ancestors access)
    if guards.isEmpty then pure declared
    else
      let possible ← refineAll t bind guards (TypeSet.ofType declared)
      pure possible.fold
  | _ => pure declared

end Inquiry
end ReactiveLang
