import ReactiveLang.Analysis.Typing
import ReactiveLang.Proofs.Types.Acceptance
import ReactiveLang.Value.Native

/-!
# Operators

An operator asks one kind of its operands: booleans, or measurements, some of them of one unit.
Equality is defined on all values. The operands are looked at from left to right, and the first one
that is not as it should be is refused (`BinaryOperator.Offends`); but the right operand of `&` and
`|` is not looked at where the left one settles the result (`BinaryOperator.Settles`).

* `apply_eq_error_iff`: just when, and with what, operators fail.
* `resultType_accepts`: a value that an operator gives is of the type that the analysis determines
  for the operation.
-/

namespace ReactiveLang

/-! ## Operands -/

/-- The value is of the kind that an operand's type names. -/
def Value.IsOf (expected : Ty) (v : Value) : Prop :=
  match expected with
  | .boolean => ∃ b, v = .boolean b
  | .measurement _ => ∃ x u, v = .measurement x u
  | _ => True

namespace Value

variable {v : Value}

theorem booleanOf_of_not_isOf (h : ¬ v.IsOf .boolean) :
    v.booleanOf = .error (.typeMismatch .boolean v) := by
  cases v with
  | boolean b => exact absurd ⟨b, rfl⟩ h
  | _ => rfl

theorem measurementOf_of_not_isOf (h : ¬ v.IsOf (.measurement none)) :
    v.measurementOf = .error (.typeMismatch (.measurement none) v) := by
  cases v with
  | measurement x u => exact absurd ⟨x, u, rfl⟩ h
  | _ => rfl

end Value

namespace BinaryOperator

/-- The type that is asked of both operands. -/
def operandType? : BinaryOperator → Option Ty
  | equal | notEqual => none
  | and | or => some .boolean
  | _ => some (.measurement none)

/-- The operands have to be of one unit. -/
def needsOneUnit : BinaryOperator → Bool
  | add | subtract | remainder | less | greater | lessOrEqual | greaterOrEqual => true
  | _ => false

/-- The left operand settles the result. -/
def Settles (operator : BinaryOperator) (left : Value) : Prop :=
  operator = and ∧ left = .boolean false ∨ operator = or ∧ left = .boolean true

/-- The first operand, from left to right, that is not of the expected type. -/
inductive Offends (operator : BinaryOperator) : Value → Value → Ty → Value → Prop where
  | left {left right : Value} {expected : Ty} (asked : operator.operandType? = some expected)
      (wrong : ¬ left.IsOf expected) : Offends operator left right expected left
  | right {left right : Value} {expected : Ty} (asked : operator.operandType? = some expected)
      (isOf : left.IsOf expected) (wrong : ¬ right.IsOf expected) :
      Offends operator left right expected right
  | unit {x y : Float} {u v : MeasureUnit} (asked : operator.needsOneUnit = true)
      (wrong : u ≠ v) :
      Offends operator (.measurement x u) (.measurement y v) (.measurement (some u))
        (.measurement y v)

/-- What an operator makes of two measurements that it accepts. -/
def ofMeasurements (operator : BinaryOperator) (x : Float) (u : MeasureUnit) (y : Float)
    (v : MeasureUnit) : Value :=
  match operator with
  | multiply => .measurement (x * y) (u.product v)
  | divide => .measurement (x / y) (u.quotient v)
  | _ => operator.onNumbers u x y

variable {operator : BinaryOperator} {left right v : Value}

/-! ## Results and failures -/

theorem apply_of_settles (h : operator.Settles left) : operator.apply left right = .ok left := by
  obtain ⟨rfl, rfl⟩ | ⟨rfl, rfl⟩ := h <;> rfl

/-- Where the left operand settles the result, one that is no boolean offends on the right. -/
theorem Settles.offends (h : operator.Settles left) (hright : ¬ right.IsOf .boolean) :
    operator.Offends left right .boolean right := by
  obtain ⟨rfl, rfl⟩ | ⟨rfl, rfl⟩ := h <;> exact .right rfl ⟨_, rfl⟩ hright

/-- Where the left operand settles the result, a boolean does not offend on the right. -/
theorem Settles.not_offends {expected : Ty} (h : operator.Settles left)
    (hright : right.IsOf .boolean) : ¬ operator.Offends left right expected v := by
  obtain ⟨rfl, rfl⟩ | ⟨rfl, rfl⟩ := h <;> intro hoffends
  all_goals
    cases hoffends with
    | left asked wrong =>
      cases asked
      exact wrong ⟨_, rfl⟩
    | right asked isOf wrong =>
      cases asked
      exact wrong hright

/-- A boolean that does not settle the result leaves it to the right operand. -/
theorem apply_of_open {b : Bool} (asked : operator.operandType? = some .boolean)
    (hopen : ¬ operator.Settles (.boolean b)) :
    operator.apply (.boolean b) right = right.booleanOf.map .boolean := by
  cases operator with
  | and =>
    cases b with
    | false => exact absurd (.inl ⟨rfl, rfl⟩) hopen
    | true => cases right <;> rfl
  | or =>
    cases b with
    | false => cases right <;> rfl
    | true => exact absurd (.inr ⟨rfl, rfl⟩) hopen
  | _ => cases asked

/-- Measurements have a result, unless they are of two units where one is needed. -/
theorem apply_measurements (asked : operator.operandType? = some (.measurement none)) (x : Float)
    (u : MeasureUnit) (y : Float) (w : MeasureUnit) :
    operator.apply (.measurement x u) (.measurement y w) =
      if operator.needsOneUnit ∧ u ≠ w then
        .error (.typeMismatch (.measurement (some u)) (.measurement y w))
      else .ok (operator.ofMeasurements x u y w) := by
  cases operator with
  | equal | notEqual | and | or => cases asked
  | multiply | divide => rfl
  | _ =>
    by_cases h : u = w
    · rw [if_neg fun hne => hne.2 h]
      exact if_pos h
    · rw [if_pos ⟨rfl, h⟩]
      exact if_neg h

theorem operandType?_of_needsOneUnit (h : operator.needsOneUnit = true) :
    operator.operandType? = some (.measurement none) := by
  cases operator <;> first | rfl | cases h

/-- An operator asks for booleans, or for measurements of any unit. -/
theorem operandType?_eq {expected : Ty} (h : operator.operandType? = some expected) :
    expected = .boolean ∨ expected = .measurement none := by
  cases operator <;> cases h <;> first | exact .inl rfl | exact .inr rfl

/-- An operand that offends is refused, unless the result is settled before. -/
theorem apply_of_offends {expected : Ty} (h : operator.Offends left right expected v)
    (hopen : ¬ operator.Settles left) :
    operator.apply left right = .error (.typeMismatch expected v) := by
  cases h with
  | left asked wrong =>
    cases operator with
    | equal | notEqual => cases asked
    | and | or =>
      cases asked
      simp only [apply, logical, Value.booleanOf_of_not_isOf wrong]
      rfl
    | _ =>
      cases asked
      simp only [apply, Value.measurementOf_of_not_isOf wrong]
      rfl
  | right asked isOf wrong =>
    cases operator with
    | equal | notEqual => cases asked
    | and | or =>
      cases asked
      obtain ⟨b, rfl⟩ := isOf
      rw [apply_of_open rfl hopen, Value.booleanOf_of_not_isOf wrong]
      rfl
    | _ =>
      cases asked
      obtain ⟨x, u, rfl⟩ := isOf
      simp only [apply, Value.measurementOf_of_not_isOf wrong]
      rfl
  | unit asked wrong =>
    rw [apply_measurements (operandType?_of_needsOneUnit asked), if_pos ⟨asked, wrong⟩]

/-- What an operator may give: booleans, but for arithmetic, which makes a measurement of two. -/
inductive Gives (operator : BinaryOperator) : Value → Value → Value → Prop where
  | equality {left right : Value} (b : Bool) (asked : operator.operandType? = none) :
      Gives operator left right (.boolean b)
  | logic {left right : Value} (b : Bool) (asked : operator.operandType? = some .boolean) :
      Gives operator left right (.boolean b)
  | ofMeasurements (x : Float) (u : MeasureUnit) (y : Float) (w : MeasureUnit)
      (asked : operator.operandType? = some (.measurement none))
      (oneUnit : operator.needsOneUnit = true → u = w) :
      Gives operator (.measurement x u) (.measurement y w) (operator.ofMeasurements x u y w)

theorem Settles.gives (h : operator.Settles left) : operator.Gives left right left := by
  obtain ⟨rfl, rfl⟩ | ⟨rfl, rfl⟩ := h <;> exact .logic _ rfl

/-- Operands that do not offend have a result. -/
theorem exists_gives (h : ∀ expected v, ¬ operator.Offends left right expected v)
    (hopen : ¬ operator.Settles left) :
    ∃ v, operator.Gives left right v ∧ operator.apply left right = .ok v := by
  cases hasked : operator.operandType? with
  | none =>
    cases operator with
    | equal | notEqual => exact ⟨_, .equality _ rfl, rfl⟩
    | _ => cases hasked
  | some expected =>
    have hleft : left.IsOf expected := Classical.not_not.1 fun hno => h _ _ (.left hasked hno)
    have hright : right.IsOf expected :=
      Classical.not_not.1 fun hno => h _ _ (.right hasked hleft hno)
    rcases operandType?_eq hasked with rfl | rfl
    · obtain ⟨a, rfl⟩ := hleft
      obtain ⟨b, rfl⟩ := hright
      exact ⟨_, .logic b hasked, apply_of_open hasked hopen⟩
    · obtain ⟨x, u, rfl⟩ := hleft
      obtain ⟨y, w, rfl⟩ := hright
      have hunit : operator.needsOneUnit = true → u = w := fun hneeds =>
        Classical.not_not.1 fun hne => h _ _ (.unit hneeds hne)
      refine ⟨_, .ofMeasurements x u y w hasked hunit, ?_⟩
      rw [apply_measurements hasked, if_neg fun hne => hne.2 (hunit hne.1)]

/-- The result is settled, an operand offends, or the operator gives what it may. -/
theorem apply_cases (operator : BinaryOperator) (left right : Value) :
    operator.Settles left ∧ operator.apply left right = .ok left ∨
      (¬ operator.Settles left ∧ ∃ expected v, operator.Offends left right expected v ∧
        operator.apply left right = .error (.typeMismatch expected v)) ∨
      ∃ v, operator.Gives left right v ∧ operator.apply left right = .ok v := by
  by_cases hsettles : operator.Settles left
  · exact .inl ⟨hsettles, apply_of_settles hsettles⟩
  · by_cases hoffends : ∃ expected v, operator.Offends left right expected v
    · obtain ⟨expected, v, h⟩ := hoffends
      exact .inr (.inl ⟨hsettles, expected, v, h, apply_of_offends h hsettles⟩)
    · exact .inr (.inr (exists_gives (fun expected v h => hoffends ⟨expected, v, h⟩) hsettles))

theorem gives_of_apply (h : operator.apply left right = .ok v) : operator.Gives left right v := by
  rcases apply_cases operator left right with ⟨hsettles, hok⟩ | ⟨-, _, _, -, herror⟩ | ⟨u, hu, hok⟩
  · cases h.symm.trans hok
    exact hsettles.gives
  · cases h.symm.trans herror
  · cases h.symm.trans hok
    exact hu

theorem apply_eq_error_iff {kind : ExceptionKind Value} :
    operator.apply left right = .error kind ↔ ¬ operator.Settles left ∧
      ∃ expected v, operator.Offends left right expected v ∧ kind = .typeMismatch expected v := by
  constructor
  · intro h
    rcases apply_cases operator left right with
      ⟨-, hok⟩ | ⟨hopen, expected, v, hoffends, herror⟩ | ⟨_, -, hok⟩
    · cases h.symm.trans hok
    · cases h.symm.trans herror
      exact ⟨hopen, expected, v, hoffends, rfl⟩
    · cases h.symm.trans hok
  · rintro ⟨hopen, expected, v, hoffends, rfl⟩
    exact apply_of_offends hoffends hopen

end BinaryOperator

namespace UnaryOperator

/-- The type that is asked of the operand. -/
def operandType : UnaryOperator → Ty
  | negate => .measurement none
  | not => .boolean

variable {operator : UnaryOperator} {operand v : Value}

theorem apply_eq_error_iff {kind : ExceptionKind Value} : operator.apply operand = .error kind ↔
    ¬ operand.IsOf operator.operandType ∧ kind = .typeMismatch operator.operandType operand := by
  by_cases h : operand.IsOf operator.operandType
  · rw [iff_false_right fun hno => hno.1 h]
    cases operator with
    | negate =>
      obtain ⟨x, u, rfl⟩ := h
      exact nofun
    | not =>
      obtain ⟨b, rfl⟩ := h
      exact nofun
  · have herror : operator.apply operand = .error (.typeMismatch operator.operandType operand) := by
      cases operator with
      | negate =>
        rw [apply, Value.measurementOf_of_not_isOf h]
        rfl
      | not =>
        rw [apply, Value.booleanOf_of_not_isOf h]
        rfl
    rw [herror, Except.error.injEq, eq_comm, and_iff_right h]

end UnaryOperator

/-- Operators refuse just the operands that offend, and name the type that is expected and the first
such operand: one that is no boolean for the logical operators, no measurement for the others, or a
measurement of another unit for sums, differences, remainders and comparisons. Equality refuses none.
Where the left operand of `&` and `|` settles the result, the right one is not looked at, and it is
there alone that an operand passes that offends: a right one that is no boolean. -/
theorem operators_refuse (operator : BinaryOperator) (left right : Value) :
    ((∀ kind, operator.apply left right = .error kind ↔
        ∃ expected v, operator.Offends left right expected v ∧ kind = .typeMismatch expected v) ↔
      (operator.Settles left → right.IsOf .boolean)) ∧
    (∀ kind, operator.apply left right = .error kind ↔ ¬ operator.Settles left ∧
      ∃ expected v, operator.Offends left right expected v ∧ kind = .typeMismatch expected v) ∧
    (operator.Settles left → operator.apply left right = .ok left) ∧
    (operator.isEquality = true → ∃ b, operator.apply left right = .ok (.boolean b)) ∧
    ∀ (operator : UnaryOperator) (operand : Value) (kind : ExceptionKind Value),
      operator.apply operand = .error kind ↔ ¬ operand.IsOf operator.operandType ∧
        kind = .typeMismatch operator.operandType operand := by
  refine ⟨⟨fun hall hsettles => ?_, fun hright kind => ?_⟩,
    fun _ => BinaryOperator.apply_eq_error_iff, BinaryOperator.apply_of_settles, fun h => ?_,
    fun _ _ _ => UnaryOperator.apply_eq_error_iff⟩
  · refine Classical.not_not.1 fun hno => ?_
    have herror := (hall _).2 ⟨_, _, hsettles.offends hno, rfl⟩
    cases herror.symm.trans (BinaryOperator.apply_of_settles hsettles)
  · rw [BinaryOperator.apply_eq_error_iff]
    refine and_iff_right_of_imp fun ⟨_, _, hoffends, _⟩ hsettles => ?_
    exact hsettles.not_offends (hright hsettles) hoffends
  · cases operator with
    | equal | notEqual => exact ⟨_, rfl⟩
    | _ => cases h

/-- A false left operand settles `&`, and a number on the right goes unnoticed; a true one does
not, and any boolean may stand on the right of both. -/
theorem operators_refuse_number :
    BinaryOperator.and.Settles (.boolean false) ∧
      BinaryOperator.and.apply (.boolean false) (.number 1) = .ok (.boolean false) ∧
      BinaryOperator.and.apply (.boolean true) (.number 1) =
        .error (.typeMismatch .boolean (.number 1)) ∧
      (∃ b, BinaryOperator.equal.apply (.boolean false) (.number 1) = .ok (.boolean b)) ∧
      ∀ kind, BinaryOperator.and.apply (.boolean false) (.boolean true) = .error kind ↔
        ∃ expected v, BinaryOperator.and.Offends (.boolean false) (.boolean true) expected v ∧
          kind = .typeMismatch expected v := by
  have hsettles : BinaryOperator.and.Settles (.boolean false) := .inl ⟨rfl, rfl⟩
  have hopen : ¬ BinaryOperator.and.Settles (.boolean true) := by simp [BinaryOperator.Settles]
  have hnumber : ¬ (Value.number 1).IsOf .boolean := by simp [Value.IsOf, Value.number]
  obtain ⟨-, -, hsettled, -, -⟩ := operators_refuse .and (.boolean false) (.number 1)
  obtain ⟨-, hrefused, -, -, -⟩ := operators_refuse .and (.boolean true) (.number 1)
  obtain ⟨-, -, -, hequal, -⟩ := operators_refuse .equal (.boolean false) (.number 1)
  obtain ⟨hfaithful, -, -, -, -⟩ := operators_refuse .and (.boolean false) (.boolean true)
  exact ⟨hsettles, hsettled hsettles,
    (hrefused _).2 ⟨hopen, .boolean, .number 1, .right rfl ⟨true, rfl⟩ hnumber, rfl⟩,
    hequal rfl, hfaithful.2 fun _ => ⟨true, rfl⟩⟩

/-- A number offends on the right of `&`, and is not refused. -/
theorem offending_number_passes :
    BinaryOperator.and.Offends (.boolean false) (.number 1) .boolean (.number 1) ∧
      BinaryOperator.and.apply (.boolean false) (.number 1) = .ok (.boolean false) :=
  ⟨.right rfl ⟨false, rfl⟩ (by simp [Value.IsOf, Value.number]), rfl⟩

/-! ## Types of results -/

section
variable {l r : Ty} {u w : MeasureUnit}

theorem Ty.additive_accepts (hl : l.accepts (.measurement (some u)) = true)
    (hr : r.accepts (.measurement (some u)) = true) :
    (l.additive r).accepts (.measurement (some u)) = true := by
  unfold Ty.additive
  split
  · exact hl
  · exact hr
  · exact Ty.unknown_accepts _ _
  · exact Ty.unknown_accepts _ _

theorem Ty.multiplicative_accepts (combine : MeasureUnit → MeasureUnit → MeasureUnit)
    (hl : l.accepts (.measurement (some u)) = true)
    (hr : r.accepts (.measurement (some w)) = true) :
    (l.multiplicative combine r).accepts (.measurement (some (combine u w))) = true := by
  unfold Ty.multiplicative
  split
  · obtain rfl : _ = u := by simpa [Ty.accepts] using hl
    obtain rfl : _ = w := by simpa [Ty.accepts] using hr
    exact Ty.accepts_self _
  · exact (Ty.Fits.anyUnit _).accepts
  · exact Ty.unknown_accepts _ _
  · exact Ty.unknown_accepts _ _
  · exact Ty.unknown_accepts _ _

end

theorem BinaryOperator.resultType_accepts {operator : BinaryOperator} {left right v : Value}
    {l r : Ty} (hl : l.accepts left.typeOf = true) (hr : r.accepts right.typeOf = true)
    (h : operator.apply left right = .ok v) :
    (operator.resultType l r).accepts v.typeOf = true := by
  cases gives_of_apply h with
  | equality b asked | logic b asked =>
    cases operator <;> first | exact Ty.Fits.boolean.accepts | cases asked
  | ofMeasurements x u y w asked oneUnit =>
    cases operator with
    | equal | notEqual | and | or => cases asked
    | multiply | divide => exact Ty.multiplicative_accepts _ hl hr
    | add | subtract | remainder =>
      obtain rfl := oneUnit rfl
      exact Ty.additive_accepts hl hr
    | _ => exact Ty.Fits.boolean.accepts

theorem UnaryOperator.resultType_accepts {operator : UnaryOperator} {operand v : Value} {type : Ty}
    (htype : type.accepts operand.typeOf = true) (h : operator.apply operand = .ok v) :
    (operator.resultType type).accepts v.typeOf = true := by
  cases operator with
  | not =>
    cases operand <;> cases h
    exact Ty.Fits.boolean.accepts
  | negate =>
    cases operand <;> cases h
    rw [resultType]
    split
    · exact htype
    · exact Ty.unknown_accepts _ _

section
variable {t : Tree} {id : NodeId} {definitions : NodeId → Option Definition}

theorem Inquiry.follow_binary {left right : NodeId} {operator : BinaryOperator}
    (hc : t.construct id = .binary left operator right) (types : NodeId → Ty) :
    (typeRule t id).follow (m := Id) types definitions =
      operator.resultType (types left).carried (types right).carried := by
  rw [typeRule, hc]
  rfl

theorem Inquiry.follow_unary {operand : NodeId} {operator : UnaryOperator}
    (hc : t.construct id = .unary operator operand) (types : NodeId → Ty) :
    (typeRule t id).follow (m := Id) types definitions =
      operator.resultType (types operand).carried := by
  rw [typeRule, hc]
  cases operator <;> rfl

end

/-- A value that an operator gives is of the type that is determined for the operation, whatever the
types of the operands are that accept theirs: unions, numbers of any unit or unknown ones included.
So the rule of types is sound for the nodes of operations, whatever it is told of their operands. -/
theorem operations_typed :
    (∀ (operator : BinaryOperator) (left right v : Value) (l r : Ty),
      l.accepts left.typeOf = true → r.accepts right.typeOf = true →
        operator.apply left right = .ok v → (operator.resultType l r).accepts v.typeOf = true) ∧
    (∀ (operator : UnaryOperator) (operand v : Value) (type : Ty),
      type.accepts operand.typeOf = true → operator.apply operand = .ok v →
        (operator.resultType type).accepts v.typeOf = true) ∧
    ∀ (t : Tree) (id : NodeId) (types : NodeId → Ty) (definitions : NodeId → Option Definition),
      let type : Ty := (Inquiry.typeRule t id).follow (m := Id) types definitions
      (∀ (l r : NodeId) (operator : BinaryOperator), t.construct id = .binary l operator r →
        ∀ left right v : Value, (types l).carried.accepts left.typeOf = true →
          (types r).carried.accepts right.typeOf = true → operator.apply left right = .ok v →
            type.accepts v.typeOf = true) ∧
      ∀ (o : NodeId) (operator : UnaryOperator), t.construct id = .unary operator o →
        ∀ operand v : Value, (types o).carried.accepts operand.typeOf = true →
          operator.apply operand = .ok v → type.accepts v.typeOf = true := by
  refine ⟨fun _ _ _ _ _ _ => BinaryOperator.resultType_accepts,
    fun _ _ _ _ => UnaryOperator.resultType_accepts, fun t id types definitions => ⟨?_, ?_⟩⟩
  · intro l r operator hc left right v hl hr h
    rw [Inquiry.follow_binary hc]
    exact BinaryOperator.resultType_accepts hl hr h
  · intro o operator hc operand v ho h
    rw [Inquiry.follow_unary hc]
    exact UnaryOperator.resultType_accepts ho h

/-- A length divided by a time, as an operation on numbers of any unit too and as a node of a tree; an
unknown sum with a time; and the negation of what may be a time or nothing. -/
theorem operations_typed_speed :
    let metre := MeasureUnit.ofDimension "m"
    let second := MeasureUnit.ofDimension "s"
    let speed := Value.measurement (6 / 2) (metre.quotient second)
    let nodes : Array Node := #[⟨.number 6 metre, .zero⟩, ⟨.number 2 second, .zero⟩,
      ⟨.binary ⟨0⟩ .divide ⟨1⟩, .zero⟩]
    let t : Tree := ⟨nodes, #[some ⟨2⟩, some ⟨2⟩, none], ⟨2⟩⟩
    let types : NodeId → Ty := fun id => .measurement (some (if id = ⟨0⟩ then metre else second))
    let type : Ty := (Inquiry.typeRule t ⟨2⟩).follow (m := Id) types fun _ => none
    ((Ty.measurement (some metre)).multiplicative .quotient (.measurement (some second))).accepts
        speed.typeOf = true ∧
      ((Ty.measurement none).multiplicative .quotient (.measurement (some second))).accepts
        speed.typeOf = true ∧
      ((Ty.unknown .cycle).additive (.measurement (some second))).accepts
        (Value.measurement (2 + 2) second).typeOf = true ∧
      (UnaryOperator.negate.resultType (.union (.measurement (some second)) .nothing)).accepts
        (Value.measurement (-2) second).typeOf = true ∧
      type.accepts speed.typeOf = true := by
  intro metre second speed nodes t types type
  obtain ⟨hbinary, hunary, hnodes⟩ := operations_typed
  have htime := Ty.accepts_self (.measurement (some second))
  have hlength := Ty.accepts_self (.measurement (some metre))
  exact ⟨hbinary .divide (.measurement 6 metre) (.measurement 2 second) _ _ _ hlength htime rfl,
    hbinary .divide (.measurement 6 metre) (.measurement 2 second) _ _ _
      (Ty.Fits.anyUnit _).accepts htime rfl,
    hbinary .add (.measurement 2 second) (.measurement 2 second) _ _ _
      (Ty.unknown_accepts .cycle _) htime rfl,
    hunary .negate (.measurement 2 second) _ _ (Ty.union_accepts_left htime _) rfl,
    (hnodes t ⟨2⟩ types fun _ => none).1 ⟨0⟩ ⟨1⟩ .divide rfl (.measurement 6 metre)
      (.measurement 2 second) _ hlength htime rfl⟩

end ReactiveLang
