import ReactiveLang.Proofs.Eval.Steps
import ReactiveLang.Proofs.Syntax.Finished

/-!
# Definitions that the root reaches

Code is laid out for the nodes that the root reaches, so a call runs as it should only if its
definition is one of them. `Handle.InTree` says so of a pointer. A node of the tree makes no other
pointers (`WellFormed.allows`): its own definition, the members of a structure, and a conversion
that is looked up are all in the tree.

The search for a conversion looks at the statements of `Tree.consulted`, in their order
(`conversion?_eq`).
-/

namespace ReactiveLang

/-- A definition that the pointer names is reached by the root. -/
def Handle.InTree (t : Tree) : Handle → Prop
  | .callable c => ∀ definition, c.definition? = some definition → t.Reaches definition
  | .instanceOf definition _ => t.Reaches definition
  | .stream _ | .failure => True

theorem findSome?_flatMap {α β γ : Type} (items : List α) (parts : α → List β)
    (test : β → Option γ) : (items.flatMap parts).findSome? test =
      items.findSome? fun item => (parts item).findSome? test := by
  induction items with
  | nil => rfl
  | cons item rest ih =>
    rw [List.flatMap_cons, List.findSome?_append, ih, List.findSome?_cons]
    cases (parts item).findSome? test <;> rfl

namespace Tree

variable {t : Tree} {id : NodeId}

theorem Reaches.statement (h : t.Reaches id) {statement : NodeId}
    (hs : statement ∈ t.statements id) : t.Reaches statement := by
  refine h.child ?_
  unfold statements at hs
  unfold children
  split at hs
  · rename_i hc
    rw [hc]
    exact hs
  · cases hs

theorem Reaches.input (h : t.Reaches id) {input : NodeId} (hi : input ∈ t.inputsOf id) :
    t.Reaches input := by
  refine h.child ?_
  unfold inputsOf at hi
  unfold children
  split at hi
  · rename_i hc
    rw [hc]
    exact List.mem_append_left _ hi
  · rename_i hc
    rw [hc]
    exact List.mem_append_left _ hi
  · cases hi

theorem Reaches.body (h : t.Reaches id) {body : NodeId} (hb : t.bodyOf? id = some body) :
    t.Reaches body := by
  refine h.child ?_
  unfold bodyOf? at hb
  unfold children
  split at hb
  all_goals first
    | (rename_i hc; rw [hc]; cases hb; simp [Construct.children])
    | cases hb

theorem Reaches.structureStatement (h : t.Reaches id) {statement : NodeId}
    (hs : statement ∈ t.structureStatements id) : t.Reaches statement := by
  unfold structureStatements at hs
  split at hs
  · rename_i hc
    exact (h.body (by rw [bodyOf?, hc])).statement hs
  · cases hs

theorem Reaches.calledNode (h : t.Reaches id) {provided : Nat} {node : NodeId}
    (hn : node ∈ t.calledNodes id provided) : t.Reaches node := by
  rcases List.mem_append.1 hn with hn | hn
  · exact h.input (List.mem_of_mem_drop (List.mem_filter.1 hn).1)
  · exact h.body (Option.mem_toList.1 hn)

theorem Reaches.member (h : t.Reaches id) {name : String} {member : NodeId}
    (hm : t.structureMember? id name = some member) : t.Reaches member := by
  unfold structureMember? at hm
  split at hm
  · rename_i hc
    rcases Option.or_eq_some_iff.1 hm with hm | ⟨-, hm⟩
    · refine h.input ?_
      rw [inputsOf, hc]
      exact List.mem_of_find?_eq_some hm
    · exact h.structureStatement (List.mem_of_find?_eq_some hm)
  · cases hm

theorem WellFormed.ancestorsFrom_reaches (w : t.WellFormed) (h : t.Reaches id) (fuel : Nat)
    {ancestor : NodeId} (ha : ancestor ∈ t.ancestorsFrom fuel id) : t.Reaches ancestor := by
  induction fuel generalizing id with
  | zero => cases ha
  | succ fuel ih =>
    unfold ancestorsFrom at ha
    split at ha
    · rename_i parent hp
      have hr := (w.parent_reaches h hp).1
      rcases List.mem_cons.1 ha with rfl | ha
      · exact hr
      · exact ih hr ha
    · cases ha

/-! ## Conversions -/

section
variable (t)

/-- The statements in which a type's own conversions are. -/
def ownStatements : Ty → List NodeId
  | .instanceOf definition _ => t.structureStatements definition
  | _ => []

/-- The statements that the search for a conversion looks at, each for a member of the type that is
converted: those of the structures first, then those around the node, nearest first. -/
def consulted (input : Ty) (at_ : NodeId) : List (Ty × NodeId) :=
  (input.members.flatMap fun member => (t.ownStatements member).map (member, ·)) ++
    (t.ancestors at_).flatMap fun ancestor =>
      input.members.flatMap fun member => (t.statements ancestor).map (member, ·)

theorem definedConversion?_map (member output : Ty) (statements : List NodeId) :
    ((statements.map (member, ·)).findSome? fun c => t.definedConversionAt? c.1 output c.2) =
      t.definedConversion? statements output member := by
  rw [List.findSome?_map]
  rfl

theorem memberConversion?_eq (output member : Ty) :
    t.memberConversion? output member =
      t.definedConversion? (t.ownStatements member) output member := by
  cases member <;> rfl

/-- A conversion is the first suitable one among the statements that are looked at, or a built-in
one. -/
theorem conversion?_eq (input output : Ty) (at_ : NodeId) :
    t.conversion? input output at_ =
      if input.isUnknown || output.isUnknown then none
      else
        ((t.consulted input at_).findSome? fun c => t.definedConversionAt? c.1 output c.2).or
          (input.members.findSome? (nativeConversion? output)) := by
  have hown : ((input.members.flatMap fun member => (t.ownStatements member).map (member, ·)).findSome?
      fun c => t.definedConversionAt? c.1 output c.2) =
        input.members.findSome? (t.memberConversion? output) := by
    rw [findSome?_flatMap]
    congr 1
    funext member
    rw [definedConversion?_map, memberConversion?_eq]
  have haround : (((t.ancestors at_).flatMap fun ancestor => input.members.flatMap fun member =>
      (t.statements ancestor).map (member, ·)).findSome?
        fun c => t.definedConversionAt? c.1 output c.2) =
          (t.ancestors at_).findSome? fun ancestor =>
            input.members.findSome? (t.definedConversion? (t.statements ancestor) output) := by
    rw [findSome?_flatMap]
    congr 1
    funext ancestor
    rw [findSome?_flatMap]
    congr 1
    funext member
    rw [definedConversion?_map]
  unfold conversion? consulted
  rw [List.findSome?_append, hown, haround, Option.or_assoc]

end

section
variable {input output : Ty}

/-- A conversion that is found at a statement is defined there. -/
theorem definedConversionAt?_cases {statement : NodeId} {found : ConversionMatch}
    (h : t.definedConversionAt? input output statement = some found) :
    found.conversion = .defined statement ∧ ∃ taken given body,
      t.construct statement = .conversionDef taken given body ∧
        (t.annotationType statement taken).accepts input = true := by
  unfold definedConversionAt? at h
  split at h
  · rename_i taken given body hc
    dsimp only at h
    split at h
    · rename_i hfits
      cases h
      exact ⟨rfl, taken, given, body, hc, (Bool.and_eq_true_iff.1 hfits).1⟩
    · cases h
  · cases h

/-- What is looked at for a member of the type is one of a structure's statements, if that is the
member, or a statement around the node. -/
theorem consulted_cases {c : Ty × NodeId} (hc : c ∈ t.consulted input id) :
    c.1 ∈ input.members ∧
      ((∃ structureDef name, c.1 = .instanceOf structureDef name ∧
        c.2 ∈ t.structureStatements structureDef) ∨
        ∃ ancestor ∈ t.ancestors id, c.2 ∈ t.statements ancestor) := by
  rcases List.mem_append.1 hc with hc | hc
  · obtain ⟨member, hmember, hc⟩ := List.mem_flatMap.1 hc
    obtain ⟨statement, hs, rfl⟩ := List.mem_map.1 hc
    refine ⟨hmember, .inl ?_⟩
    unfold ownStatements at hs
    split at hs
    · exact ⟨_, _, rfl, hs⟩
    · cases hs
  · obtain ⟨ancestor, ha, hc⟩ := List.mem_flatMap.1 hc
    obtain ⟨member, hmember, hc⟩ := List.mem_flatMap.1 hc
    obtain ⟨statement, hs, rfl⟩ := List.mem_map.1 hc
    exact ⟨hmember, .inr ⟨ancestor, ha, hs⟩⟩

/-- A conversion that is looked up is found at a statement that is looked at, or it is built-in. -/
theorem conversion?_found {found : ConversionMatch}
    (h : t.conversion? input output id = some found) : input.isUnknown = false ∧
      ((∃ c ∈ t.consulted input id, t.definedConversionAt? c.1 output c.2 = some found) ∨
        ∃ member ∈ input.members, nativeConversion? output member = some found) := by
  rw [conversion?_eq] at h
  split at h
  · cases h
  · rename_i hknown
    refine ⟨?_, ?_⟩
    · cases hu : input.isUnknown with
      | false => rfl
      | true => exact absurd (by rw [hu]; rfl) hknown
    · rcases Option.or_eq_some_iff.1 h with h | ⟨-, h⟩
      · exact .inl (List.exists_of_findSome?_eq_some h)
      · exact .inr (List.exists_of_findSome?_eq_some h)

/-- A built-in conversion is no definition of the tree. -/
theorem nativeConversion?_cases {member : Ty} {found : ConversionMatch}
    (h : nativeConversion? output member = some found) :
    ∃ c, NativeConversion.find? member output = some c ∧ found = ⟨.native c, c.outputType member⟩ := by
  obtain ⟨c, hc, rfl⟩ := Option.map_eq_some_iff.1 h
  exact ⟨c, hc, rfl⟩

/-- A definition that is looked up for a conversion is one of those that are looked at, and takes the
member of the type. -/
theorem conversion?_defined {definition : NodeId} {type : Ty}
    (h : t.conversion? input output id = some ⟨.defined definition, type⟩) :
    ∃ member, (member, definition) ∈ t.consulted input id ∧ ∃ taken given body,
      t.construct definition = .conversionDef taken given body ∧
        (t.annotationType definition taken).accepts member = true := by
  obtain ⟨-, ⟨⟨member, statement⟩, hc, hat⟩ | ⟨member, -, hnative⟩⟩ := conversion?_found h
  · obtain ⟨hdefined, hdef⟩ := definedConversionAt?_cases hat
    obtain rfl := Conversion.defined.inj hdefined
    exact ⟨member, hc, hdef⟩
  · obtain ⟨c, -, hfound⟩ := nativeConversion?_cases hnative
    cases hfound

/-- A conversion that is looked up is one of a structure of the type, or a statement around the
node. -/
theorem conversion?_place {definition : NodeId} {type : Ty}
    (h : t.conversion? input output id = some ⟨.defined definition, type⟩) :
    (∃ taken given body, t.construct definition = .conversionDef taken given body) ∧
      ((∃ structureDef name, Ty.instanceOf structureDef name ∈ input.members ∧
        definition ∈ t.structureStatements structureDef) ∨
        ∃ ancestor ∈ t.ancestors id, definition ∈ t.statements ancestor) := by
  obtain ⟨member, hc, taken, given, body, hdef, -⟩ := conversion?_defined h
  refine ⟨⟨taken, given, body, hdef⟩, ?_⟩
  obtain ⟨hm, ⟨structureDef, name, rfl, hs⟩ | haround⟩ := consulted_cases hc
  · exact .inl ⟨structureDef, name, hm, hs⟩
  · exact .inr haround

/-- All that is looked at is in the tree, if the structures of the type are. -/
theorem WellFormed.consulted_reaches (w : t.WellFormed) (h : t.Reaches id)
    (hin : ∀ definition name, Ty.instanceOf definition name ∈ input.members → t.Reaches definition)
    {c : Ty × NodeId} (hc : c ∈ t.consulted input id) : t.Reaches c.2 := by
  obtain ⟨hm, ⟨structureDef, name, heq, hs⟩ | ⟨ancestor, ha, hs⟩⟩ := consulted_cases hc
  · exact (hin _ _ (heq ▸ hm)).structureStatement hs
  · exact (w.ancestorsFrom_reaches h _ ha).statement hs

/-- A conversion that is looked up is in the tree, if the structures of the type are. -/
theorem WellFormed.conversion?_reaches (w : t.WellFormed) (h : t.Reaches id)
    (hin : ∀ definition name, Ty.instanceOf definition name ∈ input.members → t.Reaches definition)
    {definition : NodeId} {type : Ty}
    (hc : t.conversion? input output id = some ⟨.defined definition, type⟩) :
    t.Reaches definition := by
  obtain ⟨member, hmem, -⟩ := conversion?_defined hc
  exact w.consulted_reaches h hin hmem

end

end Tree

/-- Only an instance has the type of a structure. -/
theorem Value.instanceOf_of_mem_members {v : Value} {definition : NodeId} {name : String}
    (h : Ty.instanceOf definition name ∈ v.typeOf.members) :
    ∃ object, v = .instanceOf object ∧ object.definition = definition := by
  cases v with
  | instanceOf object =>
    simp only [typeOf, Ty.members, List.mem_singleton, Ty.instanceOf.injEq] at h
    exact ⟨object, rfl, h.1.symm⟩
  | function callable =>
    cases callable <;> simp [typeOf, callableType, Signature.functionType, Ty.members] at h
  | _ => simp [typeOf, Ty.members] at h

/-! ## What a node of the tree may point to -/

/-- A node of the tree makes no pointers out of the tree. -/
theorem Tree.WellFormed.allows {w : World} (hw : w.tree.WellFormed) {es : Evaluations}
    (hes : ∀ id e, es.find? id = some e → w.tree.Reaches e.definition) {current : EvaluationId}
    {node : NodeId} (hn : w.tree.Reaches node) :
    Allows w es current node (Handle.InTree w.tree) where
  function := by rintro - - - - - _ ⟨⟩; exact hn
  structureDef := by rintro - - - - _ ⟨⟩; exact hn
  conversionDef := by rintro - - - - _ ⟨⟩; exact hn
  memberFunction := by
    rintro definition e name member f inputs output body hr hm - _ ⟨⟩
    exact Tree.Reaches.member hr hm
  memberStructure := by
    rintro definition e name member f inputs body hr hm - _ ⟨⟩
    exact Tree.Reaches.member hr hm
  this := fun id e he _ => hes id e he
  conversion := by
    rintro v target definition type hc hv _ ⟨⟩
    refine hw.conversion?_reaches hn (fun d name hd => ?_) hc
    obtain ⟨object, rfl, rfl⟩ := Value.instanceOf_of_mem_members hd
    exact ((Value.holds_instanceOf object).1 hv).1

end ReactiveLang
