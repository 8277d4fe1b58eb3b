import ReactiveLang.Value.Native

/-!
# What values point to

A value may point to a stream, to a definition with the evaluation whose names it sees, or to the
evaluation that made an instance. `Value.handles` lists these pointers at any depth, and
`v.Holds ok` says that all of them satisfy `ok`.

* Operators, methods of texts and built-in conversions make no handles: those of a result come
  from the operands (`binary_handles`, `unary_handles`, `method_handles`, `conversion_holds`).
* `holds_setOf`, `holds_mapOf`: collections hold what their items hold.
-/

namespace ReactiveLang

/-- Something outside of a value that the value points to. -/
inductive Handle where
  | stream (id : StreamId)
  /-- A definition of the program and the evaluation whose names it sees. -/
  | callable (callable : Callable)
  | instanceOf (definition : NodeId) (evaluation : EvaluationId)
  /-- A failure inside a value; no running program has one. -/
  | failure

/-- A method carries its text, and the definition of a stream is no node. -/
def Callable.handles : Callable → List Handle
  | .text _ _ | .stream _ => []
  | c => [.callable c]

/-- The evaluation that a handle names. -/
def Handle.evaluation? : Handle → Option EvaluationId
  | .callable (.function _ closure) => some closure
  | .callable (.structureDef _ closure) => some closure
  | .callable (.conversion _ closure) => some closure
  | .instanceOf _ evaluation => some evaluation
  | _ => none

/-- No evaluation is named but the program's own. -/
def Handle.Rooted (h : Handle) : Prop := ∀ id, h.evaluation? = some id → id = .root

namespace Value

mutual

/-- What the value points to, at any depth. -/
def handles (v : Value) : List Handle :=
  match v with
  | nothing | boolean _ | text _ | measurement _ _ => []
  | list items => itemHandles items
  | set items => itemHandles items
  | map entries => entryHandles entries
  | instanceOf object => instanceHandles object
  | exception kind _ => .failure :: kindHandles kind
  | stream id => [.stream id]
  | function callable => callable.handles
termination_by structural v

def itemHandles (items : List Value) : List Handle :=
  match items with
  | [] => []
  | v :: rest => handles v ++ itemHandles rest
termination_by structural items

def entryHandles (entries : List (Value × Value)) : List Handle :=
  match entries with
  | [] => []
  | (k, v) :: rest => handles k ++ handles v ++ entryHandles rest
termination_by structural entries

def instanceHandles (object : Instance Value) : List Handle :=
  match object with
  | ⟨definition, _, evaluation, _, bindings⟩ =>
    .instanceOf definition evaluation :: bindingHandles bindings
termination_by structural object

def bindingHandles (bindings : List (String × Value)) : List Handle :=
  match bindings with
  | [] => []
  | (_, v) :: rest => handles v ++ bindingHandles rest
termination_by structural bindings

def kindHandles (kind : ExceptionKind Value) : List Handle :=
  match kind with
  | .typeMismatch _ received => handles received
  | .nameNotFound _ | .conversionNotFound _ _ | .stepLimit | .callDepthLimit | .evaluationLimit _
  | .valueRequired _ | .textTooLong _ | .unparsable => []
termination_by structural kind

end

/-- Everything that the value points to satisfies `ok`. -/
def Holds (ok : Handle → Prop) (v : Value) : Prop := ∀ h ∈ v.handles, ok h

variable {ok : Handle → Prop}

theorem Holds.mono {ok' : Handle → Prop} {v : Value} (hv : v.Holds ok)
    (himp : ∀ h, ok h → ok' h) : v.Holds ok' :=
  fun h hh => himp h (hv h hh)

/-- A value without handles holds anything. -/
theorem holds_of_handles_nil {v : Value} (h : v.handles = []) : v.Holds ok := by
  simp [Holds, h]

@[simp] theorem holds_nothing : nothing.Holds ok := holds_of_handles_nil rfl

@[simp] theorem holds_boolean (b : Bool) : (boolean b).Holds ok := holds_of_handles_nil rfl

@[simp] theorem holds_text (s : String) : (text s).Holds ok := holds_of_handles_nil rfl

@[simp] theorem holds_measurement (x : Float) (u : MeasureUnit) : (measurement x u).Holds ok :=
  holds_of_handles_nil rfl

@[simp] theorem holds_stream (id : StreamId) : (stream id).Holds ok ↔ ok (.stream id) := by
  simp [Holds, handles]

@[simp] theorem holds_function (c : Callable) :
    (function c).Holds ok ↔ ∀ h ∈ c.handles, ok h := Iff.rfl

/-! ## Collections -/

theorem itemHandles_eq (items : List Value) : itemHandles items = items.flatMap handles := by
  induction items with
  | nil => rfl
  | cons v rest ih => simp [itemHandles, ih]

theorem entryHandles_eq (entries : List (Value × Value)) :
    entryHandles entries = entries.flatMap fun e => e.1.handles ++ e.2.handles := by
  induction entries with
  | nil => rfl
  | cons e rest ih => obtain ⟨k, v⟩ := e; simp [entryHandles, ih]

theorem bindingHandles_eq (bindings : List (String × Value)) :
    bindingHandles bindings = bindings.flatMap fun b => b.2.handles := by
  induction bindings with
  | nil => rfl
  | cons b rest ih => obtain ⟨n, v⟩ := b; simp [bindingHandles, ih]

@[simp] theorem holds_list (items : List Value) :
    (list items).Holds ok ↔ ∀ v ∈ items, v.Holds ok := by
  simp only [Holds, handles, itemHandles_eq, List.mem_flatMap]
  exact ⟨fun h v hv x hx => h x ⟨v, hv, hx⟩, fun h x ⟨v, hv, hx⟩ => h v hv x hx⟩

@[simp] theorem holds_set (items : List Value) :
    (set items).Holds ok ↔ ∀ v ∈ items, v.Holds ok := holds_list items

@[simp] theorem holds_map (entries : List (Value × Value)) :
    (map entries).Holds ok ↔ ∀ e ∈ entries, e.1.Holds ok ∧ e.2.Holds ok := by
  simp only [Holds, handles, entryHandles_eq, List.mem_flatMap, List.mem_append]
  constructor
  · intro h e he
    exact ⟨fun x hx => h x ⟨e, he, .inl hx⟩, fun x hx => h x ⟨e, he, .inr hx⟩⟩
  · rintro h x ⟨e, he, hx | hx⟩
    · exact (h e he).1 x hx
    · exact (h e he).2 x hx

theorem holds_instanceOf (object : Instance Value) :
    (instanceOf object).Holds ok ↔
      ok (.instanceOf object.definition object.evaluation) ∧
        ∀ b ∈ object.bindings, b.2.Holds ok := by
  obtain ⟨definition, name, evaluation, inputs, bindings⟩ := object
  simp only [Holds, handles, instanceHandles, bindingHandles_eq, List.mem_cons, List.mem_flatMap]
  constructor
  · intro h
    exact ⟨h _ (.inl rfl), fun b hb x hx => h x (.inr ⟨b, hb, hx⟩)⟩
  · rintro ⟨h1, h2⟩ x (rfl | ⟨b, hb, hx⟩)
    · exact h1
    · exact h2 b hb x hx

theorem mem_addItem {items : List Value} {item v : Value} (h : v ∈ addItem items item) :
    v ∈ items ∨ v = item := by
  unfold addItem at h
  split at h
  · exact .inl h
  · simpa using h

theorem mem_foldl_addItem {items found : List Value} {v : Value}
    (h : v ∈ items.foldl addItem found) : v ∈ found ∨ v ∈ items := by
  induction items generalizing found with
  | nil => exact .inl h
  | cons item rest ih =>
    rcases ih h with h | h
    · rcases mem_addItem h with h | rfl
      · exact .inl h
      · exact .inr (by simp)
    · exact .inr (by simp [h])

theorem holds_setOf {items : List Value} (h : ∀ v ∈ items, v.Holds ok) : (setOf items).Holds ok := by
  unfold setOf
  rw [holds_set]
  intro v hv
  rcases mem_foldl_addItem hv with hv | hv
  · simp at hv
  · exact h v hv

theorem mem_putEntry {entries : List (Value × Value)} {entry e : Value × Value}
    (h : e ∈ putEntry entries entry) :
    e ∈ entries ∨ e = entry ∨ ∃ k v, (k, v) ∈ entries ∧ e = (k, entry.2) := by
  induction entries with
  | nil => simp only [putEntry, List.mem_singleton] at h; exact .inr (.inl h)
  | cons first rest ih =>
    obtain ⟨k, v⟩ := first
    unfold putEntry at h
    split at h
    · rcases List.mem_cons.1 h with rfl | h
      · exact .inr (.inr ⟨k, v, by simp, rfl⟩)
      · exact .inl (by simp [h])
    · rcases List.mem_cons.1 h with rfl | h
      · exact .inl (by simp)
      · rcases ih h with h | h | ⟨k', v', h, he⟩
        · exact .inl (by simp [h])
        · exact .inr (.inl h)
        · exact .inr (.inr ⟨k', v', by simp [h], he⟩)

theorem holds_mapOf {entries : List (Value × Value)}
    (h : ∀ e ∈ entries, e.1.Holds ok ∧ e.2.Holds ok) : (mapOf entries).Holds ok := by
  have key : ∀ found : List (Value × Value), (∀ e ∈ found, e.1.Holds ok ∧ e.2.Holds ok) →
      ∀ e ∈ entries.foldl putEntry found, e.1.Holds ok ∧ e.2.Holds ok := by
    induction entries with
    | nil => exact fun _ hf => hf
    | cons entry rest ih =>
      intro found hf
      refine ih (fun e he => h e (by simp [he])) _ fun e he => ?_
      rcases mem_putEntry he with hm | rfl | ⟨k, v, hm, rfl⟩
      · exact hf e hm
      · exact h _ (by simp)
      · exact ⟨(hf _ hm).1, (h entry (by simp)).2⟩
  unfold mapOf
  rw [holds_map]
  exact key [] (by simp)

end Value

/-! ## Built-in operations -/

theorem bind_eq_ok {ε α β : Type} {x : Except ε α} {f : α → Except ε β} {b : β}
    (h : x >>= f = .ok b) : ∃ a, x = .ok a ∧ f a = .ok b := by
  cases x with
  | error e => cases h
  | ok a => exact ⟨a, rfl, h⟩

/-- The result of a binary operation is a boolean or a measurement. -/
theorem binary_handles {operator : BinaryOperator} {l r v : Value}
    (h : operator.apply l r = .ok v) : v.handles = [] := by
  have logical : ∀ {o : BinaryOperator}, o.logical l r = .ok v → v.handles = [] := by
    intro o h
    unfold BinaryOperator.logical at h
    obtain ⟨b, -, h⟩ := bind_eq_ok h
    split at h <;> split at h
    all_goals first
      | (cases h; rfl)
      | (obtain ⟨c, -, h⟩ := bind_eq_ok h; cases h; rfl)
  have numeric : ∀ {o : BinaryOperator} {u : MeasureUnit} {x y : Float},
      (o.onNumbers u x y).handles = [] := by
    intro o u x y
    unfold BinaryOperator.onNumbers
    split <;> rfl
  unfold BinaryOperator.apply at h
  split at h
  · cases h; rfl
  · cases h; rfl
  · exact logical h
  · exact logical h
  · obtain ⟨a, -, h⟩ := bind_eq_ok h
    obtain ⟨b, -, h⟩ := bind_eq_ok h
    cases h; rfl
  · obtain ⟨a, -, h⟩ := bind_eq_ok h
    obtain ⟨b, -, h⟩ := bind_eq_ok h
    cases h; rfl
  · obtain ⟨⟨x, u⟩, -, h⟩ := bind_eq_ok h
    obtain ⟨⟨y, u'⟩, -, h⟩ := bind_eq_ok h
    dsimp only at h
    split at h
    · cases h; exact numeric
    · cases h

theorem unary_handles {operator : UnaryOperator} {v w : Value} (h : operator.apply v = .ok w) :
    w.handles = [] := by
  unfold UnaryOperator.apply at h
  split at h
  all_goals
    obtain ⟨a, -, h⟩ := bind_eq_ok h
    cases h
    rfl

theorem texts_handles (texts : List String) : (Value.list (texts.map .text)).handles = [] := by
  simp [Value.handles, Value.itemHandles_eq]

/-- A method of a text gives numbers, booleans, texts and lists of texts. -/
theorem method_handles {m : TextMethod} {receiver : String} {arguments : List Value} {v : Value}
    (h : m.apply receiver arguments = .ok v) : v.handles = [] := by
  have repeated : ∀ {n : Nat}, TextMethod.repeatText receiver n = .ok v → v.handles = [] := by
    intro n h
    unfold TextMethod.repeatText at h
    split at h
    · cases h
    · split at h <;> (cases h; rfl)
  unfold TextMethod.apply at h
  split at h
  · cases h; rfl
  all_goals
    obtain ⟨a, -, h⟩ := bind_eq_ok h
    obtain ⟨b, -, h⟩ := bind_eq_ok h
  · exact repeated h
  all_goals first
    | (cases h; rfl)
    | (cases h; exact texts_handles _)

theorem receiver_handles {m : TextMethod} {subject v : Value} (h : m.ofReceiver subject = .ok v) :
    v.handles = [] := by
  unfold TextMethod.ofReceiver at h
  obtain ⟨a, -, h⟩ := bind_eq_ok h
  cases h
  rfl

/-- A built-in conversion makes no handle. -/
theorem conversion_holds {ok : Handle → Prop} {c : NativeConversion} {v w : Value}
    (h : c.apply v = .ok w) (hv : v.Holds ok) : w.Holds ok := by
  unfold NativeConversion.apply at h
  split at h
  · obtain ⟨s, -, h⟩ := bind_eq_ok h
    cases h
    simp
  · obtain ⟨s, -, h⟩ := bind_eq_ok h
    cases h
    cases Number.parse? (Text.trim s) <;> simp [Value.number]
  · obtain ⟨s, -, h⟩ := bind_eq_ok h
    cases h
    simp
  · obtain ⟨s, -, h⟩ := bind_eq_ok h
    cases h
    simp
  · split at h
    · cases h; exact Value.holds_setOf ((Value.holds_list _).1 hv)
    · cases h
  · split at h
    · cases h; simpa using hv
    · cases h

end ReactiveLang
