import ReactiveLang.Proofs.Eval.Contents

/-!
# Handles stay within what is allowed

A node makes few handles of its own: the definition it stands for, a member of an instance that
was never bound, the instance that is being made, a conversion, and the stream it opens. If `ok`
allows these (`Allows`) and everything around the node holds `ok`, then so does what the node does
(`outcome_holds`).
-/

namespace ReactiveLang

theorem map_eq_ok {ε α β : Type} {x : Except ε α} {f : α → β} {b : β} (h : x.map f = .ok b) :
    ∃ a, x = .ok a ∧ f a = b := by
  cases x with
  | error e => cases h
  | ok a => cases h; exact ⟨a, rfl, rfl⟩

variable {ok : Handle → Prop}

/-! ## Evaluations -/

/-- What was bound, and what is converted, holds `ok`. -/
structure Evaluation.Holds (ok : Handle → Prop) (e : Evaluation) : Prop where
  subject : ∀ v, e.subject = some v → v.Holds ok
  bindings : ∀ b ∈ e.bindings, b.2.Holds ok

theorem Evaluation.holds_iff_only {e : Evaluation} :
    e.Holds ok ↔ e.Only (Value.Holds ok) (Value.Holds ok) :=
  ⟨fun h => ⟨h.subject, h.bindings⟩, fun h => ⟨h.subject, h.bindings⟩⟩

theorem Evaluation.holds_start (kind : EvaluationKind) (definition : NodeId)
    (closure : Option EvaluationId) : (Evaluation.start kind definition closure).Holds ok :=
  ⟨nofun, nofun⟩

theorem Evaluation.Holds.mono {ok' : Handle → Prop} {e : Evaluation} (h : e.Holds ok)
    (himp : ∀ h, ok h → ok' h) : e.Holds ok' :=
  ⟨fun v hv => (h.subject v hv).mono himp, fun b hb => (h.bindings b hb).mono himp⟩

namespace Evaluations

def Holds (ok : Handle → Prop) (es : Evaluations) : Prop :=
  ∀ id e, es.find? id = some e → e.Holds ok

variable {es : Evaluations}

theorem holds_iff_only : es.Holds ok ↔ es.Only (Value.Holds ok) (Value.Holds ok) :=
  forall₃_congr fun _ _ _ => Evaluation.holds_iff_only

theorem holds_empty : Evaluations.Holds ok Store.empty :=
  holds_iff_only.2 only_empty

theorem Holds.begin (h : es.Holds ok) {e : Evaluation} (he : e.Holds ok) :
    (es.begin e).2.Holds ok :=
  holds_iff_only.2 ((holds_iff_only.1 h).begin (Evaluation.holds_iff_only.1 he))

theorem Holds.bind (h : es.Holds ok) (at_ : EvaluationId) (name : String) {v : Value}
    (hv : v.Holds ok) : (Evaluations.bind es at_ name v).Holds ok :=
  holds_iff_only.2 ((holds_iff_only.1 h).bind at_ name hv)

theorem Holds.mono {ok' : Handle → Prop} (h : es.Holds ok) (himp : ∀ h, ok h → ok' h) :
    es.Holds ok' :=
  fun id e he => (h id e he).mono himp

theorem instanceAt_fields (es : Evaluations) (t : Tree) (id : EvaluationId) :
    (es.instanceAt t id).definition = ((es.find? id).getD default).definition ∧
      (es.instanceAt t id).evaluation = id ∧
      (es.instanceAt t id).bindings = ((es.find? id).getD default).bindings := by
  unfold instanceAt
  dsimp only
  split <;> exact ⟨rfl, rfl, rfl⟩

theorem Holds.instanceAt (h : es.Holds ok) (t : Tree) {id : EvaluationId}
    (hok : ok (.instanceOf ((es.find? id).getD default).definition id)) :
    (Value.instanceOf (es.instanceAt t id)).Holds ok := by
  obtain ⟨h1, h2, h3⟩ := es.instanceAt_fields t id
  rw [Value.holds_instanceOf, h1, h2, h3]
  refine ⟨hok, fun b hb => ?_⟩
  cases hf : es.find? id with
  | none => rw [hf] at hb; cases hb
  | some e => rw [hf] at hb; exact (h id e hf).bindings b hb

end Evaluations

/-! ## Calls and outcomes -/

/-- What a call runs, as a callable. -/
def Call.callable (c : Call) : Callable :=
  match c.kind with
  | .structureDef => .structureDef c.definition c.closure
  | .conversion => .conversion c.definition c.closure
  | _ => .function c.definition c.closure

structure Call.Holds (ok : Handle → Prop) (c : Call) : Prop where
  callable : ok (.callable c.callable)
  subject : ∀ v, c.subject = some v → v.Holds ok
  arguments : ∀ v ∈ c.arguments, v.Holds ok

def Outcome.Holds (ok : Handle → Prop) : Outcome → Prop
  | .keep => True
  | .value v | .named _ v | .reaction v => v.Holds ok
  | .stream _ _ => True
  | .run call => call.Holds ok

theorem Outcome.only_of_holds {o : Outcome} (h : o.Holds ok) :
    o.Only (Value.Holds ok) (Value.Holds ok) := by
  cases o with
  | run call => exact ⟨h.subject, h.arguments⟩
  | _ => exact h

/-- `ok` allows the handles that a node may make in an evaluation. -/
structure Allows (w : World) (es : Evaluations) (current : EvaluationId) (node : NodeId)
    (ok : Handle → Prop) : Prop where
  function : ∀ name inputs output body, w.tree.construct node = .functionDef name inputs output body →
    ok (.callable (.function node current))
  structureDef : ∀ name inputs body, w.tree.construct node = .structureDef name inputs body →
    ok (.callable (.structureDef node current))
  conversionDef : ∀ input output body, w.tree.construct node = .conversionDef input output body →
    ok (.callable (.conversion node current))
  memberFunction : ∀ definition e name member f inputs output body, ok (.instanceOf definition e) →
    w.tree.structureMember? definition name = some member →
    w.tree.construct member = .functionDef f inputs output body → ok (.callable (.function member e))
  memberStructure : ∀ definition e name member f inputs body, ok (.instanceOf definition e) →
    w.tree.structureMember? definition name = some member →
    w.tree.construct member = .structureDef f inputs body → ok (.callable (.structureDef member e))
  this : ∀ id e, es.find? id = some e → e.kind = .structureDef → ok (.instanceOf e.definition id)
  conversion : ∀ v target definition output,
    w.tree.conversion? v.typeOf target node = some ⟨.defined definition, output⟩ → v.Holds ok →
    ok (.callable (.conversion definition (w.conversionClosure definition v)))

namespace World

variable {w : World}

theorem seen_holds (hs : w.streams.Holds ok) {v : Value} (hv : v.Holds ok) : (w.seen v).Holds ok :=
  seen_only hs Value.holds_nothing fun _ => hv

theorem previousValue_holds (hs : w.streams.Holds ok) {stream count v : Value}
    (h : w.previousValue stream count = .ok v) : v.Holds ok :=
  previousValue_only hs Value.holds_nothing h

theorem operand_holds {operands : List Value} (h : ∀ v ∈ operands, v.Holds ok) (i : Nat) :
    (operand operands i).Holds ok :=
  operand_only Value.holds_nothing h i

theorem holds_pairUp {values : List Value} (h : ∀ v ∈ values, v.Holds ok) :
    ∀ e ∈ pairUp values, e.1.Holds ok ∧ e.2.Holds ok :=
  pairUp_only h

theorem listItem_holds {list index v : Value} (hl : list.Holds ok)
    (h : listItem list index = .ok v) : v.Holds ok := by
  unfold listItem at h
  split at h
  · rename_i items
    split at h
    · split at h
      · rename_i i _
        cases h
        exact operand_holds ((Value.holds_list items).1 hl) i
      · cases h
        exact Value.holds_nothing
    · cases h
  · cases h

theorem lookup_holds {es : Evaluations} (h : es.Holds ok) {current : EvaluationId} {name : String}
    {v : Value} (hv : lookup es current name = .ok v) : v.Holds ok :=
  lookup_only (Evaluations.holds_iff_only.1 h) (fun _ => by simp [Callable.handles]) hv

section
variable {es : Evaluations} {current : EvaluationId} {node : NodeId}
  (ha : Allows w es current node ok)
include ha

theorem this_holds (h : es.Holds ok) {v : Value} (hv : w.this es current = .ok v) : v.Holds ok := by
  unfold World.this at hv
  split at hv
  · rename_i u hu
    cases hv
    obtain ⟨id, -, ht⟩ := List.exists_of_findSome?_eq_some hu
    unfold thisAt? at ht
    split at ht
    · cases ht
    · rename_i e he
      split at ht
      · rename_i s hs
        cases ht
        exact (h id e he).subject _ hs
      · split at ht
        · rename_i hk
          cases ht
          exact h.instanceAt _ (by rw [he]; exact ha.this id e he hk)
        · cases ht
  · cases hv

theorem property_holds {subject v : Value} {name : String} (hs : subject.Holds ok)
    (hv : w.property subject name = .ok v) : v.Holds ok := by
  unfold property at hv
  split at hv
  · rename_i object
    rw [Value.holds_instanceOf] at hs
    split at hv
    · rename_i u hu
      cases hv
      exact hs.2 _ (Keyed.mem_of_lookup hu)
    · unfold unboundMember at hv
      split at hv
      · cases hv
      · rename_i member hm
        split at hv
        · rename_i hc
          cases hv
          simpa [Callable.handles] using ha.memberFunction _ _ _ _ _ _ _ _ hs.1 hm hc
        · rename_i hc
          cases hv
          simpa [Callable.handles] using ha.memberStructure _ _ _ _ _ _ _ hs.1 hm hc
        · cases hv
  · split at hv
    · exact Value.holds_of_handles_nil (receiver_handles hv)
    · cases hv

omit ha in
theorem callOutcome_holds {function : Value} {arguments : List Value} {o : Outcome}
    (hf : function.Holds ok) (hs : ∀ v ∈ arguments, v.Holds ok)
    (h : callOutcome function arguments = .ok o) : o.Holds ok := by
  unfold callOutcome at h
  split at h
  · cases h
    exact ⟨by simpa [Callable.handles, Call.callable] using hf, nofun, hs⟩
  · cases h
    exact ⟨by simpa [Callable.handles, Call.callable] using hf, nofun, hs⟩
  · split at h
    · cases h
    · rename_i v rest
      cases h
      refine ⟨by simpa [Callable.handles, Call.callable] using hf, fun u hu => ?_, nofun⟩
      cases hu
      exact hs _ (by simp)
  · obtain ⟨v, hv, h⟩ := bind_eq_ok h
    cases h
    exact Value.holds_of_handles_nil (method_handles hv)
  · cases h
    trivial
  · cases h

theorem convertOutcome_holds {v : Value} {target : Ty} {o : Outcome} (hv : v.Holds ok)
    (h : w.convertOutcome node v target = .ok o) : o.Holds ok := by
  unfold convertOutcome at h
  split at h
  · cases h; exact hv
  · split at h
    · cases h
    · obtain ⟨u, hu, h⟩ := bind_eq_ok h
      cases h
      exact conversion_holds hu hv
    · rename_i definition output hd
      cases h
      refine ⟨ha.conversion _ _ _ _ hd hv, fun u hu => ?_, nofun⟩
      cases hu
      exact hv

/-- What a node does with its operands holds what the operands and the names around it hold. -/
theorem outcome_holds (hs : w.streams.Holds ok) (h : es.Holds ok) {operands : List Value}
    (ho : ∀ v ∈ operands, v.Holds ok) {o : Outcome}
    (hout : w.outcome es current node operands = .ok o) : o.Holds ok := by
  have hraw := fun i => operand_holds ho i
  have hseen := fun i => seen_holds hs (hraw i)
  have hmap : ∀ v ∈ operands.map w.seen, v.Holds ok := by
    intro v hv
    obtain ⟨u, hu, rfl⟩ := List.mem_map.1 hv
    exact seen_holds hs (ho u hu)
  unfold outcome at hout
  dsimp only at hout
  split at hout
  · cases hout; trivial
  · cases hout; trivial
  · cases hout
    cases hl : (operands.map w.seen).getLast? with
    | none => simp [Outcome.Holds]
    | some v => exact hmap v (List.mem_of_getLast? hl)
  · cases hout
  · cases hout; exact hraw 0
  · rename_i hc
    cases hout
    simpa [Outcome.Holds, Callable.handles] using ha.function _ _ _ _ hc
  · rename_i hc
    cases hout
    simpa [Outcome.Holds, Callable.handles] using ha.structureDef _ _ _ hc
  · rename_i hc
    cases hout
    simpa [Outcome.Holds, Callable.handles] using ha.conversionDef _ _ _ hc
  · cases hout; exact Value.holds_boolean _
  · cases hout; exact Value.holds_measurement _ _
  · cases hout; exact Value.holds_text _
  · cases hout; exact Value.holds_nothing
  · cases hout; exact (Value.holds_list _).2 hmap
  · cases hout; exact Value.holds_setOf hmap
  · cases hout; exact Value.holds_mapOf (holds_pairUp hmap)
  · obtain ⟨v, hv, rfl⟩ := map_eq_ok hout; exact lookup_holds h hv
  · obtain ⟨v, hv, rfl⟩ := map_eq_ok hout; exact property_holds ha (hseen 0) hv
  · obtain ⟨v, hv, rfl⟩ := map_eq_ok hout; exact listItem_holds (hseen 0) hv
  · obtain ⟨v, hv, rfl⟩ := map_eq_ok hout; exact this_holds ha h hv
  · obtain ⟨v, hv, rfl⟩ := map_eq_ok hout; exact Value.holds_of_handles_nil (binary_handles hv)
  · obtain ⟨v, hv, rfl⟩ := map_eq_ok hout; exact Value.holds_of_handles_nil (unary_handles hv)
  · cases hout; exact Value.holds_boolean _
  · refine callOutcome_holds (hseen 0) (fun v hv => ?_) hout
    obtain ⟨u, hu, rfl⟩ := List.mem_map.1 hv
    exact seen_holds hs (ho u (List.mem_of_mem_drop hu))
  · exact convertOutcome_holds ha (hseen 0) hout
  · obtain ⟨v, hv, rfl⟩ := map_eq_ok hout; exact previousValue_holds hs hv
  · obtain ⟨id, -, hout⟩ := bind_eq_ok hout
    cases hout
    exact Value.holds_boolean _
  · cases hout; exact hseen 0
  · cases hout

end
end World
end ReactiveLang
