import ReactiveLang.Analysis.Context

/-!
# The types of nodes

`typeRule` says what the type of a node is, in terms of the types of other nodes. A node whose
type is asked for while it is being determined has the unknown type of a cycle. A type is noted
when its derivation met no cycle, so that it is derived once.
-/

namespace ReactiveLang

namespace Inquiry

variable (t : Tree)

/-- One type for the values of some nodes. Mirrors quill-analysis/context:285-287 (`item_type`). -/
def itemType (items : List NodeId) : Inquiry Ty := do
  let types ← items.mapM valueType
  pure ((Ty.unionOf? types).getD .never)

/-- The type of a property: a member of a structure, or a method of a text. Mirrors
quill-analysis/context:289-307 (`property_type`). -/
def propertyType (access subject : NodeId) (name : String) : Inquiry Ty := do
  match ← valueType subject with
  | .instanceOf definition _ =>
    match t.structureMember? definition name with
    | some member =>
      if t.isBinding member then
        let declared ← declaredType t member
        narrow t access member declared
      else ask member
    | none => pure (.unknown .unresolved)
  | .text =>
    match TextMethod.ofName? name with
    | some method => pure method.signature.functionType
    | none => pure (.unknown .unresolved)
  | .unknown reason => pure (.unknown reason)
  | _ => pure (.unknown .unresolved)

/-- The type of what a function gives. Mirrors quill-analysis/context:188-192. -/
def outputType (definition : NodeId) (output : Option Annotation) (body : Option NodeId) :
    Inquiry Ty :=
  match output, body with
  | some annotation, _ => pure (t.annotationType definition annotation)
  | none, some body => ask body
  | none, none => pure (.unknown .unannotated)

end Inquiry

/-- The type of a sum, difference or remainder. Mirrors quill-analysis/context:336-341. -/
def Ty.additive : Ty → Ty → Ty
  | .measurement unit, _ => .measurement unit
  | .unknown _, .measurement unit => .measurement unit
  | .unknown reason, _ => .unknown reason
  | _, _ => .unknown .unsupported

/-- The type of a product or quotient, with the rule for the units. Mirrors
quill-analysis/context:342-353. -/
def Ty.multiplicative (combine : MeasureUnit → MeasureUnit → MeasureUnit) : Ty → Ty → Ty
  | .measurement (some a), .measurement (some b) => .measurement (some (combine a b))
  | .measurement _, .measurement _ => .measurement none
  | .unknown reason, _ => .unknown reason
  | _, .unknown reason => .unknown reason
  | _, _ => .unknown .unsupported

/-- The type of a binary operation on operands of two types. Mirrors quill-analysis/context:331-358
(`binary_type`). -/
def BinaryOperator.resultType (operator : BinaryOperator) (left right : Ty) : Ty :=
  match operator with
  | .add | .subtract | .remainder => left.additive right
  | .multiply => left.multiplicative MeasureUnit.product right
  | .divide => left.multiplicative MeasureUnit.quotient right
  | _ => .boolean

/-- The type of a unary operation. Mirrors quill-analysis/context:234-244. -/
def UnaryOperator.resultType (operator : UnaryOperator) (operand : Ty) : Ty :=
  match operator with
  | .not => .boolean
  | .negate => if operand.isMeasurement then operand else .unknown .unsupported

namespace Inquiry

variable (t : Tree)

/-- The type of a node. Mirrors quill-analysis/context:173-279 (`compute_type`). -/
def typeRule (id : NodeId) : Inquiry Ty :=
  match t.construct id with
  | .program block => ask block
  | .block statements =>
    match statements.getLast? with
    | some last => if (t.construct last).isDefinition then pure .never else valueType last
    | none => pure .never
  | .binding _ _ _ => declaredType t id
  | .functionDef _ inputs output body => do
    let given ← outputType t id output body
    let taken ← inputs.mapM (declaredType t)
    pure (.function taken given)
  | .structureDef _ inputs _ => do
    let taken ← inputs.mapM (declaredType t)
    pure (.function taken (t.structureType id))
  | .conversionDef input output _ =>
    pure (.function [t.annotationType id input] (t.annotationType id output))
  | .boolean _ => pure .boolean
  | .number _ unit => pure (.measurement (some unit))
  | .text _ => pure .text
  | .nothing => pure .nothing
  | .list items => do
    let item ← itemType items
    pure (.list item)
  | .set items => do
    let item ← itemType items
    pure (.set item)
  | .map entries => do
    let key ← itemType (entries.map fun e => e.1)
    let value ← itemType (entries.map fun e => e.2)
    pure (.map key value)
  | .reference _ => do
    match ← lookUp id with
    | some (.binding bind) => do
      let declared ← declaredType t bind
      narrow t id bind declared
    | some (.function definition) => ask definition
    | some (.structureDef definition) => ask definition
    | some (.stream kind) => pure kind.signature.functionType
    | none => pure (.unknown .unresolved)
  | .property subject name => propertyType t id subject name
  | .item subject _ => do
    match ← valueType subject with
    | .list item => pure ((Ty.unionOf? [item, .nothing]).getD .nothing)
    | .unknown reason => pure (.unknown reason)
    | _ => pure (.unknown .unsupported)
  | .thisValue => pure (t.thisType id)
  | .binary left operator right => do
    let l ← valueType left
    let r ← valueType right
    pure (operator.resultType l r)
  | .unary .not _ => pure .boolean
  | .unary .negate operand => do
    let type ← valueType operand
    pure (UnaryOperator.negate.resultType type)
  | .conditional _ yes no => itemType [yes, no]
  | .typeTest _ _ => pure .boolean
  | .changed _ => pure .boolean
  | .call function _ => do
    match ← ask function with
    | .function _ output => pure output
    | .unknown reason => pure (.unknown reason)
    | _ => pure (.unknown .unsupported)
  | .convert expression annotation => do
    let input ← valueType expression
    let target := t.annotationType id annotation
    if target.accepts input then pure target
    else
      match t.conversion? input target id with
      | some found => pure found.output
      | none => pure (.unknown .unsupported)
  | .previous stream _ => do
    match ← ask stream with
    | .stream item => pure item
    | .unknown reason => pure (.unknown reason)
    | _ => pure (.unknown .unsupported)
  | .reaction initial _ next => itemType [initial, next]
  | .unparsable _ => pure (.unknown .unparsable)

end Inquiry

/-- No more nodes than there are can be visited at once, and one outside the store. -/
def Tree.typingFuel (t : Tree) : Nat := t.nodes.size + 2

/-- The type of a node while the types of `visiting` are being determined. Mirrors
quill-analysis/context:99-115 (`type_of`). -/
def Tree.recallType (t : Tree) : Nat → List NodeId → NodeId → Consulting Ty
  | 0, _, _ => failure
  | fuel + 1, visiting, id => do
    match (← get).types.find? id with
    | some type => pure type
    | none =>
      if visiting.contains id then
        modify Context.countCycle
        pure (.unknown .cycle)
      else
        let before := (← get).cycles
        let type ← (Inquiry.typeRule t id).follow (recallType t fuel (id :: visiting))
          (Context.resolve t)
        if (← get).cycles = before then modify fun c => c.noteType id type
        pure type

namespace Context

/-- The type of a node. -/
def typeOf (t : Tree) (id : NodeId) : Consulting Ty := t.recallType t.typingFuel [] id

/-- The types of nodes that are asked for one after the other. -/
def typesOf (t : Tree) : List NodeId → Consulting (List Ty)
  | [] => pure []
  | id :: rest => do
    let type ← typeOf t id
    let types ← typesOf t rest
    pure (type :: types)

end Context

/-- The types of all nodes, in the order of the store. -/
def Tree.allTypes (t : Tree) : Array Ty :=
  let ids := (List.range t.nodes.size).map NodeId.mk
  match (Context.typesOf t ids).run (.fresh t.nodes.size) with
  | some (types, _) => types.toArray
  | none => #[]

end ReactiveLang
