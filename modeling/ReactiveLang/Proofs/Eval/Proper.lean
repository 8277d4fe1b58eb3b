import ReactiveLang.Proofs.Eval.Arrivals
import ReactiveLang.Proofs.Eval.Yielding
import ReactiveLang.Proofs.Value.Proper

/-!
# Machines with proper values

A machine whose values are proper takes steps to machines whose values are proper, while the streams
give measurements. Operands are seen before they get into a collection or are passed to a call, so
neither gets a stream.

* `Tree.inputNames`: the inputs of a structure, which all its instances have.
* `World.outcome_orderly`: what a node does with proper operands, or the failure it ends in.
* `Machine.Proper.step`: one step. `Retraces.proper`: all machines of a run.
* `Machine.Passes`: what the next step passes on. `Machine.Proper.passes`: that is no stream.
-/

namespace ReactiveLang

/-- The names of the inputs that a structure declares. -/
def Tree.inputNames (t : Tree) (definition : NodeId) : List String :=
  match t.construct definition with
  | .structureDef _ inputs _ => inputs.filterMap fun input => (t.construct input).definedName?
  | _ => []

theorem Evaluations.instanceAt_inputs (es : Evaluations) (t : Tree) (id : EvaluationId) :
    (es.instanceAt t id).inputs = t.inputNames (es.instanceAt t id).definition := by
  unfold Evaluations.instanceAt Tree.inputNames
  dsimp only
  split <;> rename_i hc
  · rw [hc]
  · split
    · rename_i name inputs body hc'
      exact absurd hc' (hc name inputs body)
    · rfl

/-- What a step reads of streams and of the pass before is proper. -/
structure World.Proper (w : World) : Prop where
  streams : w.streams.Only (Value.Passable w.tree.inputNames)
  pass : w.pass.Only (Value.Proper w.tree.inputNames)

/-- What a node makes is proper, and what it passes on is no stream. -/
def Outcome.Proper (layout : NodeId → List String) : Outcome → Prop
  | .keep => True
  | .value v | .named _ v | .reaction v => v.Proper layout
  | .stream _ inputs => ∀ v ∈ inputs, v.Passable layout
  | .run call => (∀ v ∈ call.arguments, v.Passable layout) ∧
      ∀ v, call.subject = some v → v.Passable layout

theorem Outcome.Proper.only {layout : NodeId → List String} {o : Outcome} (h : o.Proper layout) :
    o.Only (Value.Proper layout) (Value.Passable layout) := by
  cases o with
  | keep | stream => trivial
  | value v | named _ v | reaction v => exact h
  | run call => exact ⟨h.2, fun v hv => (h.1 v hv).proper⟩

/-! ## What a node does -/

theorem listItem_orderly {layout : NodeId → List String} {list index : Value}
    (hl : list.Proper layout) (hi : index.Proper layout) :
    Orderly layout (Value.Proper layout) (listItem list index) := by
  unfold listItem
  split
  · rename_i items
    split
    · split
      · rename_i i _
        exact World.operand_only (Value.proper_nothing layout)
          (fun v hv => (Value.proper_list.1 hl v hv).proper) i
      · exact Value.proper_nothing layout
    · exact orderly_mismatch hi
  · exact orderly_mismatch hl

theorem streamHandle_orderly {layout : NodeId → List String} {v : Value} (hv : v.Proper layout) :
    Orderly layout (fun _ => True) (streamHandle v) := by
  unfold streamHandle
  split
  · trivial
  · exact orderly_mismatch hv

namespace World

variable {w : World} {es : Evaluations} {current : EvaluationId}

theorem callOutcome_orderly {layout : NodeId → List String} {function : Value}
    {arguments : List Value} (hf : function.Proper layout)
    (ha : ∀ v ∈ arguments, v.Passable layout) :
    Orderly layout (Outcome.Proper layout) (callOutcome function arguments) := by
  unfold callOutcome
  split
  · exact ⟨ha, nofun⟩
  · exact ⟨ha, nofun⟩
  · split
    · exact orderly_error (by simp)
    · rename_i subject rest
      refine ⟨nofun, ?_⟩
      rintro v ⟨⟩
      exact ha _ List.mem_cons_self
  · exact (method_orderly (fun v hv => (ha v hv).proper) _ _).bind fun v hv => hv
  · exact ha
  · exact orderly_mismatch hf

theorem convertOutcome_orderly {layout : NodeId → List String} {v : Value}
    (hv : v.Passable layout) (node : NodeId) (target : Ty) :
    Orderly layout (Outcome.Proper layout) (w.convertOutcome node v target) := by
  unfold convertOutcome
  split
  · exact hv.proper
  · split
    · exact orderly_error (by simp)
    · exact (conversion_orderly hv.proper _).bind fun u hu => hu
    · refine ⟨nofun, ?_⟩
      rintro u ⟨⟩
      exact hv

theorem property_orderly {layout : NodeId → List String} {subject : Value}
    (hs : subject.Proper layout) (name : String) :
    Orderly layout (Value.Proper layout) (w.property subject name) := by
  unfold property
  split
  · rename_i object
    split
    · rename_i v hv
      exact (Value.proper_instanceOf.1 hs).2 _ (Keyed.mem_of_lookup hv)
    · unfold unboundMember
      split
      · exact orderly_error (by simp)
      · split
        · exact Value.proper_function layout _
        · exact Value.proper_function layout _
        · exact orderly_error (by simp)
  · split
    · exact receiver_orderly hs _
    · exact orderly_error (by simp)

section
variable (h : es.Only (Value.Proper w.tree.inputNames) (Value.Passable w.tree.inputNames))
include h

theorem lookup_orderly (name : String) :
    Orderly w.tree.inputNames (Value.Proper w.tree.inputNames) (lookup es current name) := by
  unfold lookup
  split
  · rename_i v hv
    exact h.resolve hv
  · split
    · exact Value.proper_function _ _
    · exact orderly_error (by simp)

/-- An instance has the inputs of its structure, and what it has bound is proper. -/
theorem proper_instanceAt (id : EvaluationId) :
    (Value.instanceOf (es.instanceAt w.tree id)).Proper w.tree.inputNames := by
  refine Value.proper_instanceOf.2 ⟨es.instanceAt_inputs w.tree id, fun b hb => ?_⟩
  rw [(es.instanceAt_fields w.tree id).2.2] at hb
  cases hf : es.find? id with
  | none => rw [hf] at hb; cases hb
  | some e => rw [hf] at hb; exact (h id e hf).bindings b hb

theorem this_orderly :
    Orderly w.tree.inputNames (Value.Proper w.tree.inputNames) (w.this es current) := by
  unfold World.this
  split
  · rename_i v hv
    obtain ⟨id, -, hat⟩ := List.exists_of_findSome?_eq_some hv
    unfold thisAt? at hat
    split at hat
    · cases hat
    · rename_i e he
      split at hat
      · rename_i u hu
        cases hat
        exact ((h id e he).subject _ hu).proper
      · split at hat
        · cases hat
          exact proper_instanceAt h id
        · cases hat
  · exact orderly_error (by simp)

end

section
variable (hw : w.Proper)
include hw

/-- What is seen of a stream is what a tick has given to it. -/
theorem seen_passable {v : Value} (hv : v.Proper w.tree.inputNames) :
    (w.seen v).Passable w.tree.inputNames :=
  seen_only hw.streams (Value.passable_nothing _) fun hread => ⟨hv, hread⟩

theorem previousValue_orderly {stream count : Value} (hs : stream.Proper w.tree.inputNames)
    (hc : count.Proper w.tree.inputNames) :
    Orderly w.tree.inputNames (Value.Proper w.tree.inputNames) (w.previousValue stream count) := by
  cases hv : w.previousValue stream count with
  | ok v => exact (previousValue_only hw.streams (Value.passable_nothing _) hv).proper
  | error kind =>
    have hfail : Orderly w.tree.inputNames (fun _ => True) (w.previousValue stream count) :=
      (streamHandle_orderly hs).bind fun _ _ => (measurementOf_orderly hc).bind fun _ _ => trivial
    rwa [hv] at hfail

/-- What a node does with proper operands is proper, and so is a failure. -/
theorem outcome_orderly
    (h : es.Only (Value.Proper w.tree.inputNames) (Value.Passable w.tree.inputNames))
    (node : NodeId) {operands : List Value} (ho : ∀ v ∈ operands, v.Proper w.tree.inputNames) :
    Orderly w.tree.inputNames (Outcome.Proper w.tree.inputNames)
      (w.outcome es current node operands) := by
  have hraw := fun i => operand_only (Value.proper_nothing w.tree.inputNames) ho i
  have hseen := fun i => seen_passable hw (hraw i)
  have hall : ∀ v ∈ operands.map w.seen, v.Passable w.tree.inputNames := by
    intro v hv
    obtain ⟨u, hu, rfl⟩ := List.mem_map.1 hv
    exact seen_passable hw (ho u hu)
  unfold outcome
  dsimp only
  split
  · trivial
  · trivial
  · show Value.Proper _ _
    cases hl : (operands.map w.seen).getLast? with
    | none => exact Value.proper_nothing _
    | some v => exact (hall v (List.mem_of_getLast? hl)).proper
  · exact orderly_error (by simp)
  · exact hraw 0
  · exact Value.proper_function _ _
  · exact Value.proper_function _ _
  · exact Value.proper_function _ _
  · exact Value.proper_boolean _ _
  · exact Value.proper_measurement _ _ _
  · exact Value.proper_text _ _
  · exact Value.proper_nothing _
  · exact Value.proper_list.2 hall
  · exact Value.proper_setOf hall
  · exact Value.proper_mapOf (pairUp_only hall)
  · exact (lookup_orderly h _).map fun _ hv => hv
  · exact (property_orderly (hseen 0).proper _).map fun _ hv => hv
  · exact (listItem_orderly (hseen 0).proper (hseen 1).proper).map fun _ hv => hv
  · exact (this_orderly h).map fun _ hv => hv
  · exact (binary_orderly (hseen 0).proper (hseen 1).proper _).map fun _ hv => hv
  · exact (unary_orderly (hseen 0).proper _).map fun _ hv => hv
  · exact Value.proper_boolean _ _
  · refine callOutcome_orderly (hseen 0).proper fun v hv => ?_
    obtain ⟨u, hu, rfl⟩ := List.mem_map.1 hv
    exact seen_passable hw (ho u (List.mem_of_mem_drop hu))
  · exact convertOutcome_orderly (hseen 0) _ _
  · exact (previousValue_orderly hw (hraw 0) (hseen 1).proper).map fun _ hv => hv
  · exact (streamHandle_orderly (hraw 0)).bind fun _ _ => Value.proper_boolean _ _
  · exact (hseen 0).proper
  · exact orderly_error (by simp)

end
end World

/-! ## Steps -/

namespace Machine

variable {m m' : Machine} {w : World} {s : Step} {streams : Streams}

/-- The values in the machine are proper, and what it converts is no stream. -/
structure Proper (layout : NodeId → List String) (m : Machine) : Prop where
  only : m.Only (Value.Proper layout) (Value.Passable layout)
  result : m.ResultOnly (Value.Proper layout)

theorem proper_start (layout : NodeId → List String) (p : Program) :
    (start p).Proper layout :=
  ⟨only_start p, nofun⟩

/-- A call that does not run fails without a value. -/
theorem enter_orderly {layout : NodeId → List String} (m : Machine) (w : World) (call : Call) :
    Orderly layout (fun _ => True) (m.enter w call) := by
  have hname : Orderly layout (fun _ => True) (callName w.tree call) := by
    unfold callName
    split
    · trivial
    · split
      · split
        · exact orderly_error (by simp)
        · trivial
      · split
        · exact orderly_error (by simp)
        · trivial
      · exact orderly_error (by simp)
  have hcount : ∀ name, Orderly layout (fun _ => True)
      (m.countCall w.program.config call.definition name) := by
    intro name
    unfold countCall
    dsimp only
    split
    · exact orderly_error (by simp)
    · split
      · exact orderly_error (by simp)
      · trivial
  refine hname.bind fun name _ => (hcount name).bind fun m1 _ => ?_
  dsimp only
  split
  · exact orderly_error (by simp)
  · trivial

section
variable (hw : w.Proper)
  (h : m.Only (Value.Proper w.tree.inputNames) (Value.Passable w.tree.inputNames))
include hw h

theorem outcomeOf_orderly (node : NodeId) :
    Orderly w.tree.inputNames (Outcome.Proper w.tree.inputNames) (m.outcomeOf w node) :=
  World.outcome_orderly hw h.evaluations node (h.pop (Value.proper_nothing _) _).1

theorem gives_proper (f : Frame) : m.GivesOnly (Value.Proper w.tree.inputNames) w f := by
  intro values hvalues
  unfold frameResult
  split
  · exact World.proper_instanceAt h.evaluations _
  · refine (World.seen_passable hw ?_).proper
    cases values with
    | nil => exact Value.proper_nothing _
    | cons v rest => exact hvalues v List.mem_cons_self

theorem execute_failure {f : Failure} (hf : m.execute w s = .error f) :
    f.kind.Proper w.tree.inputNames := by
  cases execute_fails hf with
  | jumpIf node count when =>
    have hpop := (h.pop (Value.proper_nothing _) 1).1
    exact orderly_mismatch (P := fun _ : Unit => True)
      (World.seen_passable hw (World.operand_only (Value.proper_nothing _) hpop 0)).proper
  | @finish node kind failed =>
    have hfinish : Orderly w.tree.inputNames (fun _ => True) (m.finishNode w node) := by
      rw [finishNode_eq]
      refine (outcomeOf_orderly hw h node).bind fun o _ => ?_
      cases o with
      | run call => exact (enter_orderly _ w call).bind fun _ _ => trivial
      | _ => trivial
    rwa [failed] at hfinish

omit h in
theorem step_proper_streams (hs : m.step w = some (s, m', streams)) :
    streams.Only (Value.Passable w.tree.inputNames) := by
  obtain rfl | ⟨kind, node, inputs, rfl⟩ := step_opens hs
  · exact hw.streams
  · exact openStream_only w kind node inputs hw.streams fun ms =>
      ⟨Value.proper_measurement _ _ _, rfl⟩

end

/-- A step keeps the machine proper, and what streams give. -/
theorem Proper.step (hw : w.Proper) (h : m.Proper w.tree.inputNames)
    (hs : m.step w = some (s, m', streams)) :
    m'.Proper w.tree.inputNames ∧ streams.Only (Value.Passable w.tree.inputNames) := by
  have hstreams := step_proper_streams hw hs
  refine ⟨?_, hstreams⟩
  have hadvanced := h.only.advanced
  obtain ⟨-, ⟨f, he, rfl, -⟩ | ⟨m1, he, rfl⟩⟩ := step_cases hs
  · refine ⟨hadvanced.fail f, ?_⟩
    rintro v ⟨⟩
    refine Value.proper_exception.2 ?_
    unfold effect at he
    split at he
    · cases he
      exact nofun
    · exact execute_failure hw hadvanced he
  · have hw' : World.Proper { w with streams } := ⟨hstreams, hw.pass⟩
    have hm1 : m1.Only (Value.Proper w.tree.inputNames) (Value.Passable w.tree.inputNames) := by
      refine hadvanced.execute (Value.proper_nothing _) hw.pass (fun node o _ ho => ?_)
        (fun _ _ _ _ => Value.proper_stream _ _) he
      have hout := outcomeOf_orderly hw hadvanced node
      rw [show m.advanced.outcomeOf w node = .ok o from ho] at hout
      exact Outcome.Proper.only hout
    obtain ⟨honly, hresult⟩ := hm1.settle (w := { w with streams }) fun g _ =>
      gives_proper hw' hm1 g
    refine ⟨honly, hresult fun v hv => h.result v ?_⟩
    rwa [execute_result he, (sameGiven_advanced m).result] at hv

/-- All machines of a run are proper. -/
theorem Retraces.proper {count : Nat} {steps : Nat → Option Step}
    (hr : m.Retraces w count steps) (hw : w.Proper) (h : m.Proper w.tree.inputNames) {i : Nat}
    (hi : i ≤ count) : (m.after w i).Proper w.tree.inputNames := by
  induction i with
  | zero => exact h
  | succ i ih =>
    obtain ⟨s, -, hs⟩ := hr i hi
    exact (Proper.step hw (ih (Nat.le_of_lt hi)) hs).1

/-! ## What is passed on -/

/-- The next step passes the value on: to a call as an argument or as what it converts, to a stream,
to a method of a text, or to a built-in conversion. -/
inductive Passes (w : World) (m : Machine) : Value → Prop where
  | argument {node : NodeId} {call : Call} {v : Value} : m.next? = some (.finish node) →
      m.outcomeOf w node = .ok (.run call) → v ∈ call.arguments → Passes w m v
  | subject {node : NodeId} {call : Call} {v : Value} : m.next? = some (.finish node) →
      m.outcomeOf w node = .ok (.run call) → call.subject = some v → Passes w m v
  | input {node : NodeId} {kind : StreamKind} {inputs : List Value} {v : Value} :
      m.next? = some (.finish node) → m.outcomeOf w node = .ok (.stream kind inputs) →
      v ∈ inputs → Passes w m v
  | method {node function : NodeId} {inputs : List NodeId} {operands : List Value}
      {method : TextMethod} {receiver : String} {v : Value} : m.next? = some (.finish node) →
      w.tree.construct node = .call function inputs → (m.pop (inputs.length + 1)).1 = operands →
      w.seen (World.operand operands 0) = .function (.text method receiver) →
      v ∈ (operands.drop 1).map w.seen → Passes w m v
  | converted {node expression : NodeId} {target : Annotation} {v : Value} :
      m.next? = some (.finish node) → w.tree.construct node = .convert expression target →
      w.seen (World.operand (m.pop 1).1 0) = v → Passes w m v

/-- Streams are read before their values are passed on. -/
theorem Proper.passes (hw : w.Proper) (h : m.Proper w.tree.inputNames) {v : Value}
    (hp : m.Passes w v) : v.Passable w.tree.inputNames := by
  have hout := outcomeOf_orderly hw h.only
  cases hp with
  | @argument node call _ _ ho hv =>
    have := hout node
    rw [ho] at this
    exact this.1 v hv
  | @subject node call _ _ ho hv =>
    have := hout node
    rw [ho] at this
    exact this.2 v hv
  | @input node kind inputs _ _ ho hv =>
    have := hout node
    rw [ho] at this
    exact this v hv
  | method _ _ hpop _ hv =>
    obtain ⟨u, hu, rfl⟩ := List.mem_map.1 hv
    subst hpop
    exact World.seen_passable hw
      ((h.only.pop (Value.proper_nothing _) _).1 u (List.mem_of_mem_drop hu))
  | converted _ _ hv =>
    subst hv
    exact World.seen_passable hw (World.operand_only (Value.proper_nothing _)
      (h.only.pop (Value.proper_nothing _) 1).1 0)

end Machine
end ReactiveLang
