import ReactiveLang.Proofs.Eval.Calling
import ReactiveLang.Proofs.Eval.Runs

/-!
# Failures of a program

A pass fails at a limit, or the program fails by itself. What the program fails with by itself is
`Own`: it is no limit, and the value that it shows is one that the failing node has looked at.

* `World.outcome_fails`: what a node does with its operands fails for a reason of its own only.
* `World.outcome_plain`: if the node was understood, that is something that it was not given, cannot
  find or cannot use.
* `Machine.effect_fails`: a step fails for a reason of its own, or at one of the three limits; the
  failure names the node of the step.
-/

namespace ReactiveLang

/-- If there is a failure, it satisfies `P`. -/
def FailsWith {ε α : Type} (P : ε → Prop) (x : Except ε α) : Prop := ∀ e, x = .error e → P e

section
variable {ε α β : Type} {P : ε → Prop}

theorem fails_ok (a : α) : FailsWith P (.ok a) := nofun

theorem fails_error {e : ε} (h : P e) : FailsWith P (.error e : Except ε α) := by
  rintro e' ⟨⟩
  exact h

theorem FailsWith.bind {x : Except ε α} {f : α → Except ε β} (hx : FailsWith P x)
    (hf : ∀ a, x = .ok a → FailsWith P (f a)) : FailsWith P (x >>= f) := by
  cases x with
  | ok a => exact hf a rfl
  | error e => exact fails_error (hx e rfl)

/-- One part of a computation fails, or the next with what it gives. -/
theorem bind_eq_error {x : Except ε α} {f : α → Except ε β} {e : ε} (h : x >>= f = .error e) :
    x = .error e ∨ ∃ a, x = .ok a ∧ f a = .error e := by
  cases x with
  | ok a => exact .inr ⟨a, rfl, h⟩
  | error e' => cases h; exact .inl rfl

theorem FailsWith.map {x : Except ε α} (hx : FailsWith P x) (f : α → β) :
    FailsWith P (x.map f) := by
  cases x with
  | ok a => exact fails_ok _
  | error e => exact fails_error (hx e rfl)

end

/-- The failure is no limit, and what it shows holds `ok`. -/
def ExceptionKind.Own (ok : Handle → Prop) (kind : ExceptionKind Value) : Prop :=
  kind.isLimit = false ∧ ∀ h ∈ Value.kindHandles kind, ok h

/-- The failure is of the program's own, and not of source that was not understood. -/
def ExceptionKind.Plain (ok : Handle → Prop) (kind : ExceptionKind Value) : Prop :=
  kind.Own ok ∧ kind ≠ .unparsable

variable {ok : Handle → Prop}

/-! ## Built-in operations -/

/-- A value of the wrong type is shown. -/
theorem plain_typeMismatch (expected : Ty) {v : Value} (hv : v.Holds ok) :
    (ExceptionKind.typeMismatch expected v).Plain ok := ⟨⟨rfl, hv⟩, nofun⟩

theorem plain_valueRequired (name : String) : (ExceptionKind.valueRequired name).Plain ok :=
  ⟨⟨rfl, nofun⟩, nofun⟩

theorem plain_nameNotFound (name : String) : (ExceptionKind.nameNotFound name).Plain ok :=
  ⟨⟨rfl, nofun⟩, nofun⟩

theorem own_unparsable : ExceptionKind.unparsable.Own ok := ⟨rfl, nofun⟩

section
variable {v : Value} (hv : v.Holds ok)
include hv

theorem measurementOf_fails : FailsWith (ExceptionKind.Plain ok) v.measurementOf := by
  unfold Value.measurementOf
  split
  · exact fails_ok _
  · exact fails_error (plain_typeMismatch _ hv)

theorem booleanOf_fails : FailsWith (ExceptionKind.Plain ok) v.booleanOf := by
  unfold Value.booleanOf
  split
  · exact fails_ok _
  · exact fails_error (plain_typeMismatch _ hv)

theorem textOf_fails : FailsWith (ExceptionKind.Plain ok) v.textOf := by
  unfold Value.textOf
  split
  · exact fails_ok _
  · exact fails_error (plain_typeMismatch _ hv)

theorem streamHandle_fails : FailsWith (ExceptionKind.Plain ok) (streamHandle v) := by
  unfold streamHandle
  split
  · exact fails_ok _
  · exact fails_error (plain_typeMismatch _ hv)

theorem unary_fails (operator : UnaryOperator) :
    FailsWith (ExceptionKind.Plain ok) (operator.apply v) := by
  unfold UnaryOperator.apply
  split
  · exact (measurementOf_fails hv).bind fun _ _ => fails_ok _
  · exact (booleanOf_fails hv).bind fun _ _ => fails_ok _

theorem receiver_fails (m : TextMethod) : FailsWith (ExceptionKind.Plain ok) (m.ofReceiver v) :=
  (textOf_fails hv).bind fun _ _ => fails_ok _

theorem conversion_fails (c : NativeConversion) :
    FailsWith (ExceptionKind.Plain ok) (c.apply v) := by
  unfold NativeConversion.apply
  split
  · exact (textOf_fails hv).bind fun _ _ => fails_ok _
  · exact (textOf_fails hv).bind fun _ _ => fails_ok _
  · exact (measurementOf_fails hv).bind fun _ _ => fails_ok _
  · exact (booleanOf_fails hv).bind fun _ _ => fails_ok _
  · split
    · exact fails_ok _
    · exact fails_error (plain_typeMismatch _ hv)
  · split
    · exact fails_ok _
    · exact fails_error (plain_typeMismatch _ hv)

end

section
variable {l r : Value} (hl : l.Holds ok) (hr : r.Holds ok)
include hl hr

theorem logical_fails (operator : BinaryOperator) :
    FailsWith (ExceptionKind.Plain ok) (operator.logical l r) := by
  have right : FailsWith (ExceptionKind.Plain ok)
      (r.booleanOf >>= fun b => pure (Value.boolean b)) :=
    (booleanOf_fails hr).bind fun _ _ => fails_ok _
  refine (booleanOf_fails hl).bind fun b _ => ?_
  split
  · split
    · exact right
    · exact fails_ok _
  · split
    · exact fails_ok _
    · exact right

theorem binary_fails (operator : BinaryOperator) :
    FailsWith (ExceptionKind.Plain ok) (operator.apply l r) := by
  have hl' := measurementOf_fails hl
  have hr' := measurementOf_fails hr
  unfold BinaryOperator.apply
  split
  · exact fails_ok _
  · exact fails_ok _
  · exact logical_fails hl hr _
  · exact logical_fails hl hr _
  · exact hl'.bind fun _ _ => hr'.bind fun _ _ => fails_ok _
  · exact hl'.bind fun _ _ => hr'.bind fun _ _ => fails_ok _
  · refine hl'.bind fun _ _ => hr'.bind fun _ _ => ?_
    dsimp only
    split
    · exact fails_ok _
    · exact fails_error (plain_typeMismatch _ hr)

theorem listItem_fails : FailsWith (ExceptionKind.Plain ok) (listItem l r) := by
  unfold listItem
  split
  · split
    · split <;> exact fails_ok _
    · exact fails_error (plain_typeMismatch _ hr)
  · exact fails_error (plain_typeMismatch _ hl)

end

/-- A method fails for an argument that is missing or of the wrong type, or for a text that is too
long. -/
theorem method_fails (m : TextMethod) (receiver : String) {arguments : List Value}
    (ha : ∀ v ∈ arguments, v.Holds ok) :
    FailsWith (ExceptionKind.Plain ok) (m.apply receiver arguments) := by
  have hargument : FailsWith (ExceptionKind.Plain ok) (m.argument arguments 0) := by
    unfold TextMethod.argument
    split
    · exact fails_ok _
    · exact fails_error (plain_valueRequired _)
  have hholds : ∀ v, m.argument arguments 0 = .ok v → v.Holds ok := by
    intro v h
    unfold TextMethod.argument at h
    split at h
    · rename_i hv
      cases h
      exact ha _ (List.mem_of_getElem? hv)
    · cases h
  have htext : FailsWith (ExceptionKind.Plain ok) (m.argument arguments 0 >>= Value.textOf) :=
    hargument.bind fun v h => textOf_fails (hholds v h)
  unfold TextMethod.apply
  split
  · exact fails_ok _
  · refine hargument.bind fun v h => (measurementOf_fails (hholds v h)).bind fun _ _ => ?_
    dsimp only
    unfold TextMethod.repeatText
    split
    · exact fails_error ⟨⟨rfl, nofun⟩, nofun⟩
    · split <;> exact fails_ok _
  all_goals exact hargument.bind fun v h => (textOf_fails (hholds v h)).bind fun _ _ => fails_ok _

/-! ## What a node does -/

namespace World

variable {w : World} {es : Evaluations} {current : EvaluationId} {node : NodeId}

theorem lookup_fails (name : String) :
    FailsWith (ExceptionKind.Plain ok) (lookup es current name) := by
  unfold lookup
  split
  · exact fails_ok _
  · split
    · exact fails_ok _
    · exact fails_error (plain_nameNotFound _)

theorem this_fails : FailsWith (ExceptionKind.Plain ok) (w.this es current) := by
  unfold World.this
  split
  · exact fails_ok _
  · exact fails_error (plain_nameNotFound _)

theorem property_fails {subject : Value} (hs : subject.Holds ok) (name : String) :
    FailsWith (ExceptionKind.Plain ok) (w.property subject name) := by
  unfold property
  split
  · split
    · exact fails_ok _
    · unfold unboundMember
      split
      · exact fails_error (plain_nameNotFound _)
      · split
        · exact fails_ok _
        · exact fails_ok _
        · exact fails_error (plain_valueRequired _)
  · split
    · exact receiver_fails hs _
    · exact fails_error (plain_nameNotFound _)

theorem callOutcome_fails {function : Value} {arguments : List Value} (hf : function.Holds ok)
    (ha : ∀ v ∈ arguments, v.Holds ok) :
    FailsWith (ExceptionKind.Plain ok) (callOutcome function arguments) := by
  unfold callOutcome
  split
  · exact fails_ok _
  · exact fails_ok _
  · split
    · exact fails_error (plain_valueRequired _)
    · exact fails_ok _
  · exact (method_fails _ _ ha).bind fun _ _ => fails_ok _
  · exact fails_ok _
  · exact fails_error (plain_typeMismatch _ hf)

theorem convertOutcome_fails {v : Value} (hv : v.Holds ok) (target : Ty) :
    FailsWith (ExceptionKind.Plain ok) (w.convertOutcome node v target) := by
  unfold convertOutcome
  split
  · exact fails_ok _
  · split
    · exact fails_error ⟨⟨rfl, nofun⟩, nofun⟩
    · exact (conversion_fails hv _).bind fun _ _ => fails_ok _
    · exact fails_ok _

theorem previousValue_fails {stream count : Value} (hs : stream.Holds ok) (hc : count.Holds ok) :
    FailsWith (ExceptionKind.Plain ok) (w.previousValue stream count) :=
  (streamHandle_fails hs).bind fun _ _ => (measurementOf_fails hc).bind fun _ _ => fails_ok _

/-- What a node that was understood does with its operands fails for what it was not given, cannot
find or cannot use. -/
theorem outcome_plain (hs : w.streams.Holds ok) {operands : List Value}
    (ho : ∀ v ∈ operands, v.Holds ok) (hnode : ∀ text, w.tree.construct node ≠ .unparsable text) :
    FailsWith (ExceptionKind.Plain ok) (w.outcome es current node operands) := by
  have hraw := fun i => operand_holds ho i
  have hseen := fun i => seen_holds hs (hraw i)
  unfold outcome
  dsimp only
  split
  · exact fails_ok _
  · exact fails_ok _
  · exact fails_ok _
  · exact fails_error (plain_valueRequired _)
  · exact fails_ok _
  · exact fails_ok _
  · exact fails_ok _
  · exact fails_ok _
  · exact fails_ok _
  · exact fails_ok _
  · exact fails_ok _
  · exact fails_ok _
  · exact fails_ok _
  · exact fails_ok _
  · exact fails_ok _
  · exact (lookup_fails _).map _
  · exact (property_fails (hseen 0) _).map _
  · exact (listItem_fails (hseen 0) (hseen 1)).map _
  · exact this_fails.map _
  · exact (binary_fails (hseen 0) (hseen 1) _).map _
  · exact (unary_fails (hseen 0) _).map _
  · exact fails_ok _
  · refine callOutcome_fails (hseen 0) fun v hv => ?_
    obtain ⟨u, hu, rfl⟩ := List.mem_map.1 hv
    exact seen_holds hs (ho u (List.mem_of_mem_drop hu))
  · exact convertOutcome_fails (hseen 0) _
  · exact (previousValue_fails (hraw 0) (hseen 1)).map _
  · exact (streamHandle_fails (hraw 0)).bind fun _ _ => fails_ok _
  · exact fails_ok _
  · rename_i hc
    exact absurd hc (hnode _)

/-- What a node does with its operands fails for a reason of its own, and shows what the operands
show. -/
theorem outcome_fails (hs : w.streams.Holds ok) {operands : List Value}
    (ho : ∀ v ∈ operands, v.Holds ok) :
    FailsWith (ExceptionKind.Own ok) (w.outcome es current node operands) := by
  by_cases hnode : ∃ text, w.tree.construct node = .unparsable text
  · obtain ⟨text, hc⟩ := hnode
    unfold outcome
    rw [hc]
    exact fails_error own_unparsable
  · exact fun kind hk => (outcome_plain hs ho (not_exists.1 hnode) kind hk).1

end World

namespace Machine

variable {m : Machine} {w : World}

/-! ## Steps -/

theorem callName_fails (t : Tree) (call : Call) :
    FailsWith (ExceptionKind.Own ok) (callName t call) := by
  unfold callName
  split
  · exact fails_ok _
  · split
    · split
      · exact fails_error ((plain_valueRequired _).1)
      · exact fails_ok _
    · split
      · exact fails_error ((plain_valueRequired _).1)
      · exact fails_ok _
    · exact fails_error own_unparsable

/-- A call is stopped where it is counted, or fails for a reason of its own. -/
theorem enter_fails {call : Call} {kind : ExceptionKind Value} (h : m.enter w call = .error kind) :
    kind.Own ok ∨ ∃ name, callName w.tree call = .ok name ∧
      m.countCall w.program.config call.definition name = .error kind := by
  unfold Machine.enter at h
  obtain hn | ⟨name, hn, h⟩ := bind_eq_error h
  · exact .inl (callName_fails _ _ _ hn)
  obtain hc | ⟨m1, -, h⟩ := bind_eq_error h
  · exact .inr ⟨name, hn, hc⟩
  dsimp only at h
  split at h
  · cases h
    exact .inl ((plain_valueRequired _).1)
  · cases h

/-- The step would exceed a limit. Steps are looked at first, then frames, then calls. -/
inductive Exceeds (w : World) (m : Machine) (s : Step) : ExceptionKind Value → Prop where
  | steps (limit : w.program.config.maxSteps ≤ m.index) : Exceeds w m s .stepLimit
  | call {call : Call} {name : String} {kind : ExceptionKind Value}
      (steps : m.index < w.program.config.maxSteps) (calls : m.Calls w s call name)
      (refused : m.Refuses w.program.config call.definition name kind) : Exceeds w m s kind

theorem countCall_refuses {config : Config} {definition : NodeId} {name : String}
    {kind : ExceptionKind Value} (h : m.countCall config definition name = .error kind) :
    m.Refuses config definition name kind := by
  obtain ⟨kind', hk, hrefused⟩ | ⟨-, -, hok⟩ := m.countCall_spec config definition name
  · rw [hk] at h
    cases h
    exact hrefused
  · rw [hok] at h
    cases h

/-- Whether a call is refused depends on the number of frames and the counters only. -/
theorem Refuses.congr {m1 : Machine} {config : Config} {definition : NodeId} {name : String}
    {kind : ExceptionKind Value} (hd : m1.depth = m.depth)
    (hc : m1.callCount definition = m.callCount definition)
    (h : m1.Refuses config definition name kind) : m.Refuses config definition name kind := by
  cases h with
  | depth limit => exact .depth (hd ▸ limit)
  | evaluations depth limit => exact .evaluations (hd ▸ depth) (hc ▸ limit)

section
variable (hm : m.Holds ok) (hs : w.streams.Holds ok)
include hm hs

/-- The finish of a node fails for a reason of its own, or its call is refused. -/
theorem finishNode_fails {node : NodeId} {kind : ExceptionKind Value}
    (h : m.finishNode w node = .error kind) :
    kind.Own ok ∨ ∃ call name, m.Calls w (.finish node) call name ∧
      m.Refuses w.program.config call.definition name kind := by
  rw [finishNode_eq] at h
  obtain ho | ⟨o, ho, h⟩ := bind_eq_error h
  · exact .inl (World.outcome_fails hs (hm.pop _).1 _ ho)
  · cases o with
    | run call =>
      obtain he | ⟨m1, -, h⟩ := bind_eq_error h
      · have hfails : kind.Own ok ∨ _ := enter_fails he
        obtain hown | ⟨name, hname, hcount⟩ := hfails
        · exact .inl hown
        · exact .inr ⟨call, name, ⟨node, rfl, ho, hname⟩, (countCall_refuses hcount).congr
            (m.pop_depth _) ((sameCalls_pop m _).callCount _)⟩
      · cases h
    | _ => cases h

/-- A step fails for a reason of its own or at a limit, and the failure names its node. -/
theorem effect_fails {s : Step} {f : Failure} (h : effect w m s = .error f) :
    f.node = s.node ∧ (f.kind.Own ok ∨ m.Exceeds w s f.kind) := by
  unfold effect at h
  split at h
  · rename_i hlimit
    cases h
    exact ⟨rfl, .inr (.steps (Nat.le_of_lt_succ hlimit))⟩
  · rename_i hlimit
    cases execute_fails h with
    | jumpIf node count when =>
      refine ⟨rfl, .inl (plain_typeMismatch _ ?_).1⟩
      exact World.seen_holds hs (World.operand_holds (hm.advanced.pop 1).1 0)
    | finish failed =>
      refine ⟨rfl, ?_⟩
      obtain hown | ⟨call, name, hcalls, hrefused⟩ := finishNode_fails hm.advanced hs failed
      · exact .inl hown
      · exact .inr (.call (Nat.lt_of_succ_le (Nat.le_of_not_lt hlimit)) hcalls.of_advanced
          (hrefused.congr m.advanced_depth ((sameCalls_advanced m).callCount _)))

end
end Machine
end ReactiveLang
