import ReactiveLang.Analysis.Basic
import ReactiveLang.Analysis.Conflict

/-!
# The rules of the language

`conflictsOf` lists what is wrong with one node, from the tree and its types alone. `conflicts`
collects it for the whole tree, parents first.
-/

namespace ReactiveLang

namespace Tree

variable (t : Tree)

/-! ## Shape -/

/-- Names that an earlier declaration has already; `earlier` are the declarations before. -/
def duplicatesAfter (earlier : List NodeId) : List NodeId → List Conflict
  | [] => []
  | id :: rest =>
    let here :=
      match ((t.construct id).definedName?).bind (t.findNamed earlier) with
      | some first => [(Conflict.on .duplicateName id).relatedTo first]
      | none => []
    here ++ duplicatesAfter (earlier ++ [id]) rest

/-- Mirrors quill-analysis/checker:138-148 (`check_duplicates`). -/
def duplicates (declarations : List NodeId) : List Conflict := t.duplicatesAfter [] declarations

/-- A block has to end in an expression, unless it holds the members of a structure. Mirrors
quill-analysis/checker:127-135. -/
def endingConflicts (block : NodeId) (statements : List NodeId) : List Conflict :=
  let ends := statements.getLast?.any fun last => !(t.construct last).isDefinition
  if t.isStructureBody block || ends then []
  else [.on .expectedEndingExpression block]

/-- Inputs without a default after one with a default. Mirrors quill-analysis/checker:152-163. -/
def lateRequired (seenOptional : Bool) : List NodeId → List Conflict
  | [] => []
  | id :: rest =>
    if t.hasDefault id then lateRequired true rest
    else if seenOptional then .on .requiredAfterOptional id :: lateRequired true rest
    else lateRequired false rest

/-- Mirrors quill-analysis/checker:150-164 (`check_inputs`). -/
def inputConflicts (inputs : List NodeId) : List Conflict :=
  t.duplicates inputs ++ t.lateRequired false inputs

/-- A function without a body. -/
def isAbstract (id : NodeId) : Bool :=
  match t.construct id with
  | .functionDef _ _ _ none => true
  | _ => false

/-- A structure with abstract functions cannot be made, so it takes no inputs. Mirrors
quill-analysis/checker:167-175 (`check_interface`). -/
def interfaceConflicts (id : NodeId) (inputs : List NodeId) : List Conflict :=
  if (t.structureStatements id).any t.isAbstract && !inputs.isEmpty then
    [.on .disallowedInputs id]
  else []

/-- Conversions stand in the program's block or among the members of a structure. Mirrors
quill-analysis/checker:177-185 (`check_conversion_placement`). -/
def placementConflicts (id : NodeId) : List Conflict :=
  let allowed := (t.parent? id).any fun block =>
    block = t.programBlock || t.isStructureBody block
  if allowed then [] else [.on .misplacedConversion id]

/-- A bind of a block that is no structure's body has to be read. Mirrors
quill-analysis/checker:208-214. -/
def mustBeRead (id : NodeId) : Bool :=
  t.isBinding id && (t.parent? id).any fun parent =>
    match t.construct parent with
    | .block _ => !t.isStructureBody parent
    | _ => false

end Tree

/-- Mirrors quill-analysis/checker:187-191 (`check_annotation`). -/
def annotationConflicts (id : NodeId) (written : Annotation) : List Conflict :=
  if written.isUnparsable then [.on .unparsable id] else []

/-- What a callee declares about an input. -/
structure DeclaredInput where
  type : Ty
  optional : Bool
  /-- Where it is declared, if in the tree. -/
  declaration : Option NodeId

/-- The conflict with a reference to the declaration of an input. -/
def DeclaredInput.explain (input : DeclaredInput) (c : Conflict) : Conflict :=
  match input.declaration with
  | some id => c.relatedTo id
  | none => c

/-- The inputs that a built-in declares. -/
def Signature.declaredInputs (s : Signature) : List DeclaredInput :=
  s.inputs.map fun i => ⟨i.type, i.optional, none⟩

namespace Inquiry

variable (t : Tree)

/-! ## Expectations -/

/-- Mirrors quill-analysis/checker:364-372 (`expect_measurement`). -/
def expectMeasurement (id : NodeId) : Inquiry (List Conflict) := do
  let type ← valueType id
  if type.isMeasurement then pure []
  else pure [(Conflict.on .incompatibleOperand id).withTypes [.measurement none, type]]

/-- Mirrors quill-analysis/checker:374-379 (`expect_boolean`). -/
def expectBoolean (kind : ConflictKind) (id : NodeId) : Inquiry (List Conflict) := do
  let type ← valueType id
  if type.isBoolean then pure [] else pure [(Conflict.on kind id).withTypes [.boolean, type]]

/-- Mirrors quill-analysis/checker:381-386 (`expect_stream`). -/
def expectStream (id : NodeId) : Inquiry (List Conflict) := do
  match ← ask id with
  | .stream _ => pure []
  | .unknown _ => pure []
  | type => pure [(Conflict.on .notAStream id).withTypes [type]]

/-- Mirrors quill-analysis/checker:74-77. -/
def expectList (id : NodeId) : Inquiry (List Conflict) := do
  match ← valueType id with
  | .list _ => pure []
  | .unknown _ => pure []
  | type => pure [(Conflict.on .notAList id).withTypes [type]]

/-! ## Binds and names -/

/-- The value has to fit the annotation, as a stream or as what the stream carries. Mirrors
quill-analysis/checker:198-206. -/
def valueConflicts (id : NodeId) (written : Option Annotation) (value : Option NodeId) :
    Inquiry (List Conflict) :=
  match written, value with
  | some written, some value => do
    let declared := t.annotationType id written
    let given ← ask value
    if declared.accepts given then pure []
    else
      let carried ← valueType value
      if declared.accepts carried then pure []
      else pure [(Conflict.on .incompatibleBind id).withTypes [declared, given]]
  | _, _ => pure []

/-- Mirrors quill-analysis/checker:67-71. -/
def nameConflicts (id : NodeId) : Inquiry (List Conflict) := do
  let found ← lookUp id
  if found.isNone then pure [.on .unknownName id] else pure []

/-- Mirrors quill-analysis/checker:217-227 (`check_property`). -/
def propertyConflicts (id subject : NodeId) (name : String) : Inquiry (List Conflict) := do
  let known ← match ← valueType subject with
    | .instanceOf _ _ => do
      let member ← memberOf t id
      pure member.isSome
    | .text => pure (TextMethod.ofName? name).isSome
    | .unknown _ => pure true
    | _ => pure false
  if known then pure [] else pure [.on .unknownProperty id]

/-! ## Operations -/

/-- Two units that are both fixed have to be the same. Mirrors quill-analysis/checker:246-252. -/
def unitConflicts (left right : NodeId) : Inquiry (List Conflict) := do
  let l ← valueType left
  let r ← valueType right
  match l.unit?, r.unit? with
  | some u, some v =>
    if u = v then pure [] else pure [(Conflict.on .incompatibleOperand right).withTypes [l, r]]
  | _, _ => pure []

/-- Mirrors quill-analysis/checker:231-255 (`check_binary`). -/
def binaryConflicts (left : NodeId) (operator : BinaryOperator) (right : NodeId) :
    Inquiry (List Conflict) :=
  match operator with
  | .equal | .notEqual => pure []
  | .and | .or => do
    let l ← expectBoolean .incompatibleOperand left
    let r ← expectBoolean .incompatibleOperand right
    pure (l ++ r)
  | .multiply | .divide => do
    let l ← expectMeasurement left
    let r ← expectMeasurement right
    pure (l ++ r)
  | _ => do
    let l ← expectMeasurement left
    let r ← expectMeasurement right
    let units ← unitConflicts left right
    pure (l ++ r ++ units)

/-- A type test that no value can pass. Mirrors quill-analysis/checker:257-273 (`check_is`). -/
def testConflicts (id expression : NodeId) (written : Annotation) : Inquiry (List Conflict) := do
  let actual ← valueType expression
  let tested := t.annotationType id written
  if actual.isUnknown || tested.isUnknown then pure []
  else if ((TypeSet.ofType actual).intersection (TypeSet.ofType tested)).isEmpty then
    pure [(Conflict.on .impossibleType id).withTypes [tested, actual]]
  else pure []

/-- Mirrors quill-analysis/checker:275-285 (`check_convert`). -/
def conversionConflicts (id expression : NodeId) (written : Annotation) :
    Inquiry (List Conflict) := do
  let input ← valueType expression
  let output := t.annotationType id written
  if input.isUnknown || output.isUnknown || output.accepts input then pure []
  else if (t.conversion? input output id).isSome then pure []
  else pure [(Conflict.on .unknownConversion id).withTypes [input, output]]

/-! ## Calls -/

/-- Matches the arguments of a call to the declared inputs, one by one. Mirrors
quill-analysis/checker:329-360 (`check_arguments`). -/
def argumentConflicts (id : NodeId) : List DeclaredInput → List NodeId → Inquiry (List Conflict)
  | [], [] => pure []
  | [], extra :: _ => pure [.on .tooManyInputs extra]
  | input :: inputs, [] => do
    let here :=
      if input.optional then []
      else [(input.explain (.on .missingInput id)).withTypes [input.type]]
    let others ← argumentConflicts id inputs []
    pure (here ++ others)
  | input :: inputs, argument :: arguments => do
    let given ← valueType argument
    let here :=
      if input.type.accepts given then []
      else [(input.explain (.on .incompatibleInput argument)).withTypes [input.type, given]]
    let others ← argumentConflicts id inputs arguments
    pure (here ++ others)

/-- An input as a function or structure declares it. Mirrors quill-analysis/checker:296-302. -/
def declaredInput (input : NodeId) : Inquiry DeclaredInput := do
  let type ← declaredType t input
  pure ⟨type, t.hasDefault input, some input⟩

/-- The arguments of a call of a function or structure. Mirrors quill-analysis/checker:291-305. -/
def inputConflicts (id definition : NodeId) (arguments : List NodeId) :
    Inquiry (List Conflict) := do
  let declared ← (t.inputsOf definition).mapM (declaredInput t)
  argumentConflicts id declared arguments

/-- Mirrors quill-analysis/checker:289-317 (`check_evaluate`). -/
def callConflicts (id function : NodeId) (arguments : List NodeId) : Inquiry (List Conflict) := do
  match ← callee t id with
  | some (.function definition) => inputConflicts t id definition arguments
  | some (.structureDef definition) => inputConflicts t id definition arguments
  | some (.stream kind) => argumentConflicts id kind.signature.declaredInputs arguments
  | some (.text method) => argumentConflicts id method.signature.declaredInputs arguments
  | none =>
    match ← ask function with
    | .function inputs _ => argumentConflicts id (inputs.map fun t => ⟨t, false, none⟩) arguments
    | .unknown _ => pure []
    | other => pure [(Conflict.on .notAFunction function).withTypes [other]]

/-! ## All rules -/

/-- What is wrong with a node, apart from a bind that is never read. Mirrors
quill-analysis/checker:46-119 (`check`). -/
def findings (id : NodeId) : Inquiry (List Conflict) :=
  match t.construct id with
  | .unparsable _ => pure [.on .unparsable id]
  | .block statements => pure (t.duplicates statements ++ t.endingConflicts id statements)
  | .binding _ written value => do
    let misfits ← valueConflicts t id written value
    pure ((written.map (annotationConflicts id)).getD [] ++ misfits)
  | .functionDef _ inputs output _ =>
    pure ((output.map (annotationConflicts id)).getD [] ++ t.inputConflicts inputs)
  | .structureDef _ inputs _ => pure (t.inputConflicts inputs ++ t.interfaceConflicts id inputs)
  | .conversionDef input output _ =>
    pure (annotationConflicts id input ++ annotationConflicts id output ++
      t.placementConflicts id)
  | .reference _ => nameConflicts id
  | .property subject name => propertyConflicts t id subject name
  | .item subject index => do
    let list ← expectList subject
    let position ← expectMeasurement index
    pure (list ++ position)
  | .binary left operator right => binaryConflicts left operator right
  | .unary .negate operand => expectMeasurement operand
  | .unary .not operand => expectBoolean .incompatibleOperand operand
  | .conditional condition _ _ => expectBoolean .expectedBooleanCondition condition
  | .reaction _ condition _ => expectBoolean .expectedBooleanCondition condition
  | .typeTest expression written => do
    let impossible ← testConflicts t id expression written
    pure (annotationConflicts id written ++ impossible)
  | .call function inputs => callConflicts t id function inputs
  | .convert expression written => do
    let missing ← conversionConflicts t id expression written
    pure (annotationConflicts id written ++ missing)
  | .previous stream count => do
    let subject ← expectStream stream
    let distance ← expectMeasurement count
    pure (subject ++ distance)
  | .changed stream => expectStream stream
  | .program _ | .boolean _ | .number _ _ | .text _ | .nothing | .list _ | .set _ | .map _
  | .thisValue => pure []

end Inquiry

/-- A bind that has no readers although it needs one. -/
def unreadConflicts (id : NodeId) (readings : List (NodeId × NodeId)) : List Conflict :=
  if (readersOf id readings).isEmpty then [.on .unusedBind id] else []

namespace Analysis

variable (a : Analysis)

/-- What is wrong with a node. Mirrors quill-analysis/checker:23-30 (`node_conflicts`). -/
def conflictsOf (id : NodeId) : List Conflict :=
  let found := a.given (Inquiry.findings a.tree id)
  if a.tree.mustBeRead id then found ++ unreadConflicts id a.readings else found

/-- What is wrong with the tree, parents first. Mirrors quill-analysis/context:640-651
(`conflicts`). -/
def conflicts : List Conflict := a.tree.reachable.flatMap a.conflictsOf

end Analysis
end ReactiveLang
