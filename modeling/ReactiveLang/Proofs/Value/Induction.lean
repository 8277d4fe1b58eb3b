import ReactiveLang.Value.Typing

/-!
# Induction over values

A value is nested in lists, entries, bindings and failures. `Value.induct` is an induction with one
case for each kind of value, where all values that the value holds have the property
(`Value.Cases`). The types of items, keys and contents are those of the values one by one
(`typesOf_eq`, `keyTypes_eq`, `contentTypes_eq`).
-/

namespace ReactiveLang

namespace Value

/-- The cases of an induction over values; collections, instances and failures have what they hold
as hypotheses. -/
structure Cases (motive : Value → Prop) : Prop where
  nothing : motive nothing
  boolean : ∀ b, motive (boolean b)
  text : ∀ s, motive (text s)
  measurement : ∀ x unit, motive (measurement x unit)
  list : ∀ items, (∀ v ∈ items, motive v) → motive (list items)
  set : ∀ items, (∀ v ∈ items, motive v) → motive (set items)
  map : ∀ entries, (∀ e ∈ entries, motive e.1 ∧ motive e.2) → motive (map entries)
  instanceOf : ∀ object, (∀ b ∈ object.bindings, motive b.2) → motive (instanceOf object)
  exception : ∀ kind node, (∀ expected v, kind = .typeMismatch expected v → motive v) →
    motive (exception kind node)
  stream : ∀ id, motive (stream id)
  function : ∀ callable, motive (function callable)

namespace Cases

variable {motive : Value → Prop}

mutual

theorem value (h : Cases motive) (v : Value) : motive v :=
  match v with
  | .nothing => h.nothing
  | .boolean b => h.boolean b
  | .text s => h.text s
  | .measurement x unit => h.measurement x unit
  | .list items => h.list items (h.items items)
  | .set items => h.set items (h.items items)
  | .map entries => h.map entries (h.entries entries)
  | .instanceOf object => h.instanceOf object (h.object object)
  | .exception kind node => h.exception kind node (h.kind kind)
  | .stream id => h.stream id
  | .function callable => h.function callable
termination_by structural v

theorem items (h : Cases motive) (items : List Value) : ∀ v ∈ items, motive v :=
  match items with
  | [] => nofun
  | v :: rest => List.forall_mem_cons.2 ⟨h.value v, h.items rest⟩
termination_by structural items

theorem entries (h : Cases motive) (entries : List (Value × Value)) :
    ∀ e ∈ entries, motive e.1 ∧ motive e.2 :=
  match entries with
  | [] => nofun
  | (k, v) :: rest => List.forall_mem_cons.2 ⟨⟨h.value k, h.value v⟩, h.entries rest⟩
termination_by structural entries

theorem object (h : Cases motive) (object : Instance Value) :
    ∀ b ∈ object.bindings, motive b.2 :=
  match object with
  | ⟨_, _, _, _, bindings⟩ => h.bindings bindings
termination_by structural object

theorem bindings (h : Cases motive) (bindings : List (String × Value)) :
    ∀ b ∈ bindings, motive b.2 :=
  match bindings with
  | [] => nofun
  | (_, v) :: rest => List.forall_mem_cons.2 ⟨h.value v, h.bindings rest⟩
termination_by structural bindings

theorem kind (h : Cases motive) (kind : ExceptionKind Value) :
    ∀ expected v, kind = .typeMismatch expected v → motive v :=
  match kind with
  | .typeMismatch _ received => fun _ _ he => by cases he; exact h.value received
  | .nameNotFound _ | .conversionNotFound _ _ | .stepLimit | .callDepthLimit | .evaluationLimit _
  | .valueRequired _ | .textTooLong _ | .unparsable => nofun
termination_by structural kind

end

end Cases

/-- Induction with one case for each kind of value. -/
theorem induct {motive : Value → Prop}
    (nothing : motive nothing) (boolean : ∀ b, motive (boolean b)) (text : ∀ s, motive (text s))
    (measurement : ∀ x unit, motive (measurement x unit))
    (list : ∀ items, (∀ v ∈ items, motive v) → motive (list items))
    (set : ∀ items, (∀ v ∈ items, motive v) → motive (set items))
    (map : ∀ entries, (∀ e ∈ entries, motive e.1 ∧ motive e.2) → motive (map entries))
    (instanceOf : ∀ object, (∀ b ∈ object.bindings, motive b.2) → motive (instanceOf object))
    (exception : ∀ kind node, (∀ expected v, kind = .typeMismatch expected v → motive v) →
      motive (exception kind node))
    (stream : ∀ id, motive (stream id)) (function : ∀ callable, motive (function callable))
    (v : Value) : motive v :=
  Cases.value ⟨nothing, boolean, text, measurement, list, set, map, instanceOf, exception, stream,
    function⟩ v

/-! ## Types of what values hold -/

theorem typesOf_eq (items : List Value) : typesOf items = items.map typeOf := by
  induction items with
  | nil => rfl
  | cons v rest ih => simp [typesOf, ih]

theorem keyTypes_eq (entries : List (Value × Value)) :
    keyTypes entries = entries.map fun e => e.1.typeOf := by
  induction entries with
  | nil => rfl
  | cons e rest ih => simp [keyTypes, ih]

theorem contentTypes_eq (entries : List (Value × Value)) :
    contentTypes entries = entries.map fun e => e.2.typeOf := by
  induction entries with
  | nil => rfl
  | cons e rest ih => simp [contentTypes, ih]

end Value
end ReactiveLang
