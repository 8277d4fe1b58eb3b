import ReactiveLang.Proofs.Value.Handles

/-!
# Proper values

Of two items of a set, or two keys of a map, the first does not equal the second, and collections
hold the values of streams instead of the streams. A value is proper if this is so at any depth.

* `Value.parts`, `Value.Everywhere`: a value with all that it holds, and what is true of all that.
* `Value.Proper`: the value is proper, and its instances have the inputs of their structures.
* `proper_setOf`, `proper_mapOf`: sets and maps of proper values other than streams are proper.
* `Orderly`: an answer or a failure is proper. Built-in operations are orderly
  (`binary_orderly`, `unary_orderly`, `method_orderly`, `conversion_orderly`).
-/

namespace ReactiveLang

namespace Value

/-! ## The parts of a value -/

mutual

/-- What the value holds, at any depth. -/
def inner (v : Value) : List Value :=
  match v with
  | list items => itemParts items
  | set items => itemParts items
  | map entries => entryParts entries
  | instanceOf object => instanceParts object
  | exception kind _ => kindParts kind
  | nothing | boolean _ | text _ | measurement _ _ | stream _ | function _ => []
termination_by structural v

def itemParts (items : List Value) : List Value :=
  match items with
  | [] => []
  | v :: rest => v :: inner v ++ itemParts rest
termination_by structural items

def entryParts (entries : List (Value × Value)) : List Value :=
  match entries with
  | [] => []
  | (k, v) :: rest => k :: inner k ++ v :: inner v ++ entryParts rest
termination_by structural entries

def instanceParts (object : Instance Value) : List Value :=
  match object with
  | ⟨_, _, _, _, bindings⟩ => bindingParts bindings
termination_by structural object

def bindingParts (bindings : List (String × Value)) : List Value :=
  match bindings with
  | [] => []
  | (_, v) :: rest => v :: inner v ++ bindingParts rest
termination_by structural bindings

def kindParts (kind : ExceptionKind Value) : List Value :=
  match kind with
  | .typeMismatch _ received => received :: inner received
  | .nameNotFound _ | .conversionNotFound _ _ | .stepLimit | .callDepthLimit | .evaluationLimit _
  | .valueRequired _ | .textTooLong _ | .unparsable => []
termination_by structural kind

end

/-- The value and what it holds, at any depth. -/
def parts (v : Value) : List Value := v :: v.inner

theorem mem_parts_self (v : Value) : v ∈ v.parts := List.mem_cons_self

/-- What the value holds itself: items, keys and values, what an instance has bound, and what a
failure has received. -/
def held : Value → List Value
  | list items => items
  | set items => items
  | map entries => entries.flatMap fun e => [e.1, e.2]
  | instanceOf object => object.bindings.map fun b => b.2
  | exception (.typeMismatch _ received) _ => [received]
  | _ => []

theorem itemParts_eq (items : List Value) : itemParts items = items.flatMap parts := by
  induction items with
  | nil => rfl
  | cons v rest ih => simp [itemParts, parts, ih]

theorem entryParts_eq (entries : List (Value × Value)) :
    entryParts entries = (entries.flatMap fun e => [e.1, e.2]).flatMap parts := by
  induction entries with
  | nil => rfl
  | cons e rest ih => obtain ⟨k, v⟩ := e; simp [entryParts, parts, ih]

theorem bindingParts_eq (bindings : List (String × Value)) :
    bindingParts bindings = (bindings.map fun b => b.2).flatMap parts := by
  induction bindings with
  | nil => rfl
  | cons b rest ih => obtain ⟨n, v⟩ := b; simp [bindingParts, parts, ih]

/-- The parts of a value are itself and those of what it holds itself. -/
theorem inner_eq (v : Value) : v.inner = v.held.flatMap parts := by
  cases v with
  | list items | set items => exact itemParts_eq items
  | map entries => exact entryParts_eq entries
  | instanceOf object =>
    obtain ⟨definition, name, evaluation, inputs, bindings⟩ := object
    exact bindingParts_eq bindings
  | exception kind node => cases kind <;> simp [inner, kindParts, held, parts]
  | _ => rfl

/-- The value and all that it holds have the property. -/
def Everywhere (P : Value → Prop) (v : Value) : Prop := ∀ u ∈ v.parts, P u

variable {P : Value → Prop} {v : Value}

theorem everywhere_iff : v.Everywhere P ↔ P v ∧ ∀ u ∈ v.held, u.Everywhere P := by
  unfold Everywhere parts
  rw [List.forall_mem_cons, inner_eq]
  exact and_congr_right fun _ => List.forall_mem_flatMap

theorem Everywhere.here (h : v.Everywhere P) : P v := h v v.mem_parts_self

theorem Everywhere.mono {Q : Value → Prop} (h : v.Everywhere P) (himp : ∀ u, P u → Q u) :
    v.Everywhere Q := fun u hu => himp u (h u hu)

/-- Of a value that holds nothing, only the value itself matters. -/
theorem everywhere_of_held_nil (h : v.held = []) : v.Everywhere P ↔ P v := by
  rw [everywhere_iff, h]
  simp

theorem everywhere_list {items : List Value} :
    (list items).Everywhere P ↔ P (list items) ∧ ∀ v ∈ items, v.Everywhere P := everywhere_iff

theorem everywhere_set {items : List Value} :
    (set items).Everywhere P ↔ P (set items) ∧ ∀ v ∈ items, v.Everywhere P := everywhere_iff

theorem everywhere_map {entries : List (Value × Value)} : (map entries).Everywhere P ↔
    P (map entries) ∧ ∀ e ∈ entries, e.1.Everywhere P ∧ e.2.Everywhere P := by
  rw [everywhere_iff, held, List.forall_mem_flatMap]
  simp

theorem everywhere_instanceOf {object : Instance Value} : (instanceOf object).Everywhere P ↔
    P (instanceOf object) ∧ ∀ b ∈ object.bindings, b.2.Everywhere P := by
  rw [everywhere_iff, held, List.forall_mem_map]

theorem everywhere_exception {kind : ExceptionKind Value} {node : NodeId} :
    (exception kind node).Everywhere P ↔ P (exception kind node) ∧
      ∀ expected v, kind = .typeMismatch expected v → v.Everywhere P := by
  rw [everywhere_iff]
  refine and_congr_right fun _ => ?_
  cases kind <;> simp [held]

/-! ## What makes a value proper -/

/-- Of any two items or keys the first does not equal the second, and an instance has the inputs of
its structure, which `layout` names. -/
def Distinct (layout : NodeId → List String) : Value → Prop
  | set items => items.Pairwise fun a b => a.same b = false
  | map entries => entries.Pairwise fun d e => d.1.same e.1 = false
  | instanceOf object => object.inputs = layout object.definition
  | _ => True

/-- No item, key or value of an entry is a stream. -/
def NoStreams : Value → Prop
  | list items => ∀ v ∈ items, v.toStream? = none
  | set items => ∀ v ∈ items, v.toStream? = none
  | map entries => ∀ e ∈ entries, e.1.toStream? = none ∧ e.2.toStream? = none
  | _ => True

/-- Its collections have different items or keys, none of which is a stream, at any depth. -/
def Proper (layout : NodeId → List String) (v : Value) : Prop :=
  v.Everywhere fun u => u.Distinct layout ∧ u.NoStreams

/-- A proper value that is no stream: one that may be held by a collection or passed to a call. -/
structure Passable (layout : NodeId → List String) (v : Value) : Prop where
  proper : v.Proper layout
  noStream : v.toStream? = none

variable {layout : NodeId → List String}

section
variable (layout)

@[simp] theorem proper_nothing : nothing.Proper layout :=
  (everywhere_of_held_nil rfl).2 ⟨trivial, trivial⟩

@[simp] theorem proper_boolean (b : Bool) : (boolean b).Proper layout :=
  (everywhere_of_held_nil rfl).2 ⟨trivial, trivial⟩

@[simp] theorem proper_text (s : String) : (text s).Proper layout :=
  (everywhere_of_held_nil rfl).2 ⟨trivial, trivial⟩

@[simp] theorem proper_measurement (x : Float) (u : MeasureUnit) :
    (measurement x u).Proper layout := (everywhere_of_held_nil rfl).2 ⟨trivial, trivial⟩

@[simp] theorem proper_stream (id : StreamId) : (stream id).Proper layout :=
  (everywhere_of_held_nil rfl).2 ⟨trivial, trivial⟩

@[simp] theorem proper_function (c : Callable) : (function c).Proper layout :=
  (everywhere_of_held_nil rfl).2 ⟨trivial, trivial⟩

theorem passable_nothing : nothing.Passable layout := ⟨proper_nothing layout, rfl⟩

theorem passable_text (s : String) : (text s).Passable layout := ⟨proper_text layout s, rfl⟩

end

theorem proper_list {items : List Value} :
    (list items).Proper layout ↔ ∀ v ∈ items, v.Passable layout := by
  unfold Proper
  rw [everywhere_list]
  constructor
  · exact fun ⟨⟨_, hread⟩, hall⟩ v hv => ⟨hall v hv, hread v hv⟩
  · exact fun h => ⟨⟨trivial, fun v hv => (h v hv).noStream⟩, fun v hv => (h v hv).proper⟩

theorem proper_set {items : List Value} : (set items).Proper layout ↔
    (items.Pairwise fun a b => a.same b = false) ∧ ∀ v ∈ items, v.Passable layout := by
  unfold Proper
  rw [everywhere_set]
  constructor
  · exact fun ⟨⟨hp, hread⟩, hall⟩ => ⟨hp, fun v hv => ⟨hall v hv, hread v hv⟩⟩
  · exact fun ⟨hp, h⟩ =>
      ⟨⟨hp, fun v hv => (h v hv).noStream⟩, fun v hv => (h v hv).proper⟩

theorem proper_map {entries : List (Value × Value)} : (map entries).Proper layout ↔
    (entries.Pairwise fun d e => d.1.same e.1 = false) ∧
      ∀ e ∈ entries, e.1.Passable layout ∧ e.2.Passable layout := by
  unfold Proper
  rw [everywhere_map]
  constructor
  · exact fun ⟨⟨hp, hread⟩, hall⟩ => ⟨hp, fun e he =>
      ⟨⟨(hall e he).1, (hread e he).1⟩, ⟨(hall e he).2, (hread e he).2⟩⟩⟩
  · exact fun ⟨hp, h⟩ => ⟨⟨hp, fun e he => ⟨(h e he).1.noStream, (h e he).2.noStream⟩⟩,
      fun e he => ⟨(h e he).1.proper, (h e he).2.proper⟩⟩

theorem proper_instanceOf {object : Instance Value} : (instanceOf object).Proper layout ↔
    object.inputs = layout object.definition ∧ ∀ b ∈ object.bindings, b.2.Proper layout := by
  unfold Proper
  rw [everywhere_instanceOf]
  exact and_congr_left fun _ => and_iff_left trivial

end Value

/-- The value that a failure carries is proper. -/
def ExceptionKind.Proper (layout : NodeId → List String) (kind : ExceptionKind Value) : Prop :=
  ∀ expected v, kind = .typeMismatch expected v → v.Proper layout

theorem Value.proper_exception {layout : NodeId → List String} {kind : ExceptionKind Value}
    {node : NodeId} : (exception kind node).Proper layout ↔ kind.Proper layout := by
  unfold Value.Proper
  rw [everywhere_exception]
  exact and_iff_right ⟨trivial, trivial⟩

namespace Value

variable {layout : NodeId → List String}

/-! ## Sets and maps -/

theorem pairwise_addItem {items : List Value} (h : items.Pairwise fun a b => a.same b = false)
    (item : Value) : (addItem items item).Pairwise fun a b => a.same b = false := by
  unfold addItem
  split
  · exact h
  · rename_i hnew
    refine List.pairwise_append.2 ⟨h, List.pairwise_singleton _ _, fun u hu w hw => ?_⟩
    obtain rfl := List.mem_singleton.1 hw
    rw [← Bool.not_eq_true]
    intro hsame
    exact hnew (List.any_eq_true.2 ⟨u, hu, hsame⟩)

theorem pairwise_foldl_addItem {found : List Value}
    (h : found.Pairwise fun a b => a.same b = false) (items : List Value) :
    (items.foldl addItem found).Pairwise fun a b => a.same b = false := by
  induction items generalizing found with
  | nil => exact h
  | cons item rest ih => exact ih (pairwise_addItem h item)

theorem proper_setOf {items : List Value} (h : ∀ v ∈ items, v.Passable layout) :
    (setOf items).Proper layout := by
  unfold setOf
  rw [proper_set]
  refine ⟨pairwise_foldl_addItem List.Pairwise.nil items, fun v hv => ?_⟩
  rcases mem_foldl_addItem hv with hv | hv
  · cases hv
  · exact h v hv

theorem key_of_mem_putEntry {entries : List (Value × Value)} {entry e : Value × Value}
    (h : e ∈ putEntry entries entry) : e.1 = entry.1 ∨ ∃ d ∈ entries, e.1 = d.1 := by
  rcases mem_putEntry h with hold | rfl | ⟨k, v, hold, rfl⟩
  · exact .inr ⟨e, hold, rfl⟩
  · exact .inl rfl
  · exact .inr ⟨(k, v), hold, rfl⟩

theorem pairwise_putEntry {entries : List (Value × Value)} {entry : Value × Value}
    (h : entries.Pairwise fun d e => d.1.same e.1 = false) :
    (putEntry entries entry).Pairwise fun d e => d.1.same e.1 = false := by
  induction entries with
  | nil => exact List.pairwise_singleton _ _
  | cons first rest ih =>
    obtain ⟨k, v⟩ := first
    obtain ⟨hfirst, hrest⟩ := List.pairwise_cons.1 h
    unfold putEntry
    split
    · exact List.pairwise_cons.2 ⟨hfirst, hrest⟩
    · rename_i hnew
      refine List.pairwise_cons.2 ⟨fun e he => ?_, ih hrest⟩
      rcases key_of_mem_putEntry he with hkey | ⟨d, hd, hkey⟩
      · rw [hkey]
        exact Bool.eq_false_iff.2 hnew
      · rw [hkey]
        exact hfirst d hd

theorem proper_mapOf {entries : List (Value × Value)}
    (h : ∀ e ∈ entries, e.1.Passable layout ∧ e.2.Passable layout) :
    (mapOf entries).Proper layout := by
  have key : ∀ found : List (Value × Value),
      (found.Pairwise fun d e => d.1.same e.1 = false) →
      (∀ e ∈ found, e.1.Passable layout ∧ e.2.Passable layout) →
      ((entries.foldl putEntry found).Pairwise fun d e => d.1.same e.1 = false) ∧
        ∀ e ∈ entries.foldl putEntry found, e.1.Passable layout ∧ e.2.Passable layout := by
    induction entries with
    | nil => exact fun found hp hf => ⟨hp, hf⟩
    | cons entry rest ih =>
      intro found hp hf
      refine ih (fun e he => h e (by simp [he])) _ (pairwise_putEntry hp) fun e he => ?_
      rcases mem_putEntry he with hm | rfl | ⟨k, v, hm, rfl⟩
      · exact hf e hm
      · exact h _ (by simp)
      · exact ⟨(hf _ hm).1, (h entry (by simp)).2⟩
  exact proper_map.2 (key [] List.Pairwise.nil (by simp))

end Value

/-! ## Built-in operations -/

/-- The answer has the property, and a failure carries a proper value. -/
def Orderly {α : Type} (layout : NodeId → List String) (P : α → Prop) :
    Except (ExceptionKind Value) α → Prop
  | .ok a => P a
  | .error kind => kind.Proper layout

section
variable {α β : Type} {layout : NodeId → List String} {P : α → Prop} {Q : β → Prop}
  {x : Except (ExceptionKind Value) α}

theorem Orderly.bind {f : α → Except (ExceptionKind Value) β} (h : Orderly layout P x)
    (hf : ∀ a, P a → Orderly layout Q (f a)) : Orderly layout Q (x >>= f) := by
  cases x with
  | ok a => exact hf a h
  | error kind => exact h

theorem Orderly.map {f : α → β} (h : Orderly layout P x) (hf : ∀ a, P a → Q (f a)) :
    Orderly layout Q (x.map f) := by
  cases x with
  | ok a => exact hf a h
  | error kind => exact h

/-- A failure without a value is proper. -/
theorem orderly_error {kind : ExceptionKind Value}
    (h : ∀ expected v, kind ≠ .typeMismatch expected v) :
    Orderly layout P (.error kind) := fun expected v he => absurd he (h expected v)

theorem orderly_mismatch {expected : Ty} {v : Value} (h : v.Proper layout) :
    Orderly layout P (.error (.typeMismatch expected v)) := by
  rintro _ _ ⟨⟩
  exact h

end

section
variable {layout : NodeId → List String} {v w : Value} (hv : v.Proper layout)
include hv

theorem measurementOf_orderly : Orderly layout (fun _ => True) v.measurementOf := by
  unfold Value.measurementOf
  split
  · trivial
  · exact orderly_mismatch hv

theorem booleanOf_orderly : Orderly layout (fun _ => True) v.booleanOf := by
  unfold Value.booleanOf
  split
  · trivial
  · exact orderly_mismatch hv

theorem textOf_orderly : Orderly layout (fun _ => True) v.textOf := by
  unfold Value.textOf
  split
  · trivial
  · exact orderly_mismatch hv

theorem binary_orderly (hw : w.Proper layout) (operator : BinaryOperator) :
    Orderly layout (Value.Proper layout) (operator.apply v w) := by
  have hlogical : ∀ o : BinaryOperator, Orderly layout (Value.Proper layout) (o.logical v w) := by
    intro o
    have hright : Orderly layout (Value.Proper layout)
        (w.booleanOf >>= fun b => pure (Value.boolean b)) :=
      (booleanOf_orderly hw).bind fun b _ => Value.proper_boolean layout b
    unfold BinaryOperator.logical
    refine (booleanOf_orderly hv).bind fun l _ => ?_
    split <;> split
    · exact hright
    · exact Value.proper_boolean layout _
    · exact Value.proper_boolean layout _
    · exact hright
  have hnumbers : ∀ (o : BinaryOperator) (u : MeasureUnit) (x y : Float),
      (o.onNumbers u x y).Proper layout := by
    intro o u x y
    unfold BinaryOperator.onNumbers
    split <;> simp
  unfold BinaryOperator.apply
  split
  · exact Value.proper_boolean layout _
  · exact Value.proper_boolean layout _
  · exact hlogical _
  · exact hlogical _
  · exact (measurementOf_orderly hv).bind fun _ _ => (measurementOf_orderly hw).bind fun _ _ =>
      Value.proper_measurement layout _ _
  · exact (measurementOf_orderly hv).bind fun _ _ => (measurementOf_orderly hw).bind fun _ _ =>
      Value.proper_measurement layout _ _
  · refine (measurementOf_orderly hv).bind fun ⟨x, u⟩ _ =>
      (measurementOf_orderly hw).bind fun ⟨y, u'⟩ _ => ?_
    dsimp only
    split
    · exact hnumbers _ _ _ _
    · exact orderly_mismatch hw

theorem unary_orderly (operator : UnaryOperator) :
    Orderly layout (Value.Proper layout) (operator.apply v) := by
  unfold UnaryOperator.apply
  split
  · exact (measurementOf_orderly hv).bind fun _ _ => Value.proper_measurement layout _ _
  · exact (booleanOf_orderly hv).bind fun _ _ => Value.proper_boolean layout _

theorem receiver_orderly (m : TextMethod) :
    Orderly layout (Value.Proper layout) (m.ofReceiver v) :=
  (textOf_orderly hv).bind fun _ _ => Value.proper_function layout _

/-- A built-in conversion gives a proper value. -/
theorem conversion_orderly (c : NativeConversion) :
    Orderly layout (Value.Proper layout) (c.apply v) := by
  have htexts : ∀ texts : List String, (Value.list (texts.map .text)).Proper layout := by
    intro texts
    rw [Value.proper_list]
    intro u hu
    obtain ⟨s, -, rfl⟩ := List.mem_map.1 hu
    exact Value.passable_text layout s
  unfold NativeConversion.apply
  split
  · refine (textOf_orderly hv).bind fun s _ => ?_
    have := htexts (s.toList.map String.singleton)
    rwa [List.map_map] at this
  · refine (textOf_orderly hv).bind fun s _ => ?_
    show Value.Proper layout _
    cases Number.parse? (Text.trim s) with
    | none => exact Value.proper_nothing layout
    | some x => exact Value.proper_measurement layout _ _
  · exact (measurementOf_orderly hv).bind fun _ _ => Value.proper_text layout _
  · exact (booleanOf_orderly hv).bind fun _ _ => Value.proper_text layout _
  · split
    · exact Value.proper_setOf (Value.proper_list.1 hv)
    · exact orderly_mismatch hv
  · split
    · exact Value.proper_list.2 (Value.proper_set.1 hv).2
    · exact orderly_mismatch hv

end

/-- A method of a text gives a proper value for proper arguments. -/
theorem method_orderly {layout : NodeId → List String} {arguments : List Value}
    (ha : ∀ v ∈ arguments, v.Proper layout) (m : TextMethod) (receiver : String) :
    Orderly layout (Value.Proper layout) (m.apply receiver arguments) := by
  have hargument : ∀ i, Orderly layout (Value.Proper layout) (m.argument arguments i) := by
    intro i
    unfold TextMethod.argument
    split
    · rename_i v hv
      exact ha v (List.mem_of_getElem? hv)
    · exact orderly_error (by simp)
  have hrepeat : ∀ n, Orderly layout (Value.Proper layout) (TextMethod.repeatText receiver n) := by
    intro n
    unfold TextMethod.repeatText
    split
    · exact orderly_error (by simp)
    · split <;> exact Value.proper_text layout _
  unfold TextMethod.apply
  split
  · exact Value.proper_measurement layout _ _
  all_goals refine (hargument 0).bind fun v hv => ?_
  · exact (measurementOf_orderly hv).bind fun _ _ => hrepeat _
  · exact (textOf_orderly hv).bind fun _ _ => Value.proper_boolean layout _
  · exact (textOf_orderly hv).bind fun _ _ => Value.proper_boolean layout _
  · refine (textOf_orderly hv).bind fun s _ => Value.proper_list.2 fun u hu => ?_
    obtain ⟨r, -, rfl⟩ := List.mem_map.1 hu
    exact Value.passable_text layout r
  · exact (textOf_orderly hv).bind fun _ _ => Value.proper_text layout _
  · exact (textOf_orderly hv).bind fun _ _ => Value.proper_boolean layout _

end ReactiveLang
