import ReactiveLang.Proofs.Analysis.History
import ReactiveLang.Proofs.Syntax.Branches
import ReactiveLang.Proofs.Types.Narrowing

/-!
# What narrowing leaves

The type of a property that reads a member with a declared union is narrowed by the type tests in
the conditions around it. If all tests that narrowing takes for tests of the member come out as they
do for a value, what is left of the declared type accepts the type of that value
(`Analysis.typeOf_accepts`).

* `Tree.Tells`: type tests with these values tell that a condition has come out so.
* `Inquiry.Yields`: an answer has a property, whatever the types are that are asked for.
* `recallType_beside`: the type of a property's subject is the same while that of the property is
  being determined.
-/

namespace ReactiveLang

/-! ## Conditions -/

namespace Tree

variable (t : Tree)

/-- Type tests that were made of these values tell that the condition has come out so. What is no
connection of tests may come out in any way. -/
inductive Tells (made : NodeId → Value → Prop) : NodeId → Bool → Prop where
  | test {test expression : NodeId} {tested : Annotation} {v : Value}
      (construct : t.construct test = .typeTest expression tested) (saw : made test v) :
      Tells made test ((t.annotationType test tested).accepts v.typeOf)
  | not {condition operand : NodeId} {b : Bool}
      (construct : t.construct condition = .unary .not operand) (operand : Tells made operand b) :
      Tells made condition (!b)
  | and {condition left right : NodeId} {b c : Bool}
      (construct : t.construct condition = .binary left .and right) (left : Tells made left b)
      (right : Tells made right c) : Tells made condition (b && c)
  | or {condition left right : NodeId} {b c : Bool}
      (construct : t.construct condition = .binary left .or right) (left : Tells made left b)
      (right : Tells made right c) : Tells made condition (b || c)
  | other {condition : NodeId} (plain : t.isLogical condition = false) (b : Bool) :
      Tells made condition b

variable {t}

/-- Only the tests that the condition rests on matter. -/
theorem Tells.mono {made made' : NodeId → Value → Prop} {condition : NodeId} {b : Bool}
    (h : t.Tells made condition b)
    (himp : ∀ test v, t.RestsOn condition test → made test v → made' test v) :
    t.Tells made' condition b := by
  induction h with
  | test hc hm => exact .test hc (himp _ _ (.test hc) hm)
  | not hc _ ih => exact .not hc (ih fun test v hr => himp test v (.not hc hr))
  | and hc _ _ ihl ihr =>
    exact .and hc (ihl fun test v hr => himp test v (.left hc (.inl rfl) hr))
      (ihr fun test v hr => himp test v (.right hc (.inl rfl) hr))
  | or hc _ _ ihl ihr =>
    exact .or hc (ihl fun test v hr => himp test v (.left hc (.inr rfl) hr))
      (ihr fun test v hr => himp test v (.right hc (.inr rfl) hr))
  | other hp b => exact .other hp b

theorem Tells.comesOut {made : NodeId → Value → Prop} {condition : NodeId} {b : Bool}
    (h : t.Tells made condition b) :
    t.ComesOut (fun test outcome => ∃ expression tested v,
      t.construct test = .typeTest expression tested ∧ made test v ∧
        outcome = (t.annotationType test tested).accepts v.typeOf) condition b := by
  induction h with
  | test hc hm => exact .test hc ⟨_, _, _, hc, hm, rfl⟩
  | not hc _ ih => exact .not hc ih
  | and hc _ _ ihl ihr => exact .and hc ihl ihr
  | or hc _ _ ihl ihr => exact .or hc ihl ihr
  | other hp b => exact .other hp b

/-- Where a condition came out so, the tests that this tells of were made and came out as it
says. -/
theorem Tells.entails {made : NodeId → Value → Prop} {condition test : NodeId} {b outcome : Bool}
    (h : t.Tells made condition b) (he : t.Entails condition b test outcome) :
    ∃ expression tested v, t.construct test = .typeTest expression tested ∧ made test v ∧
      outcome = (t.annotationType test tested).accepts v.typeOf :=
  h.comesOut.entails he

end Tree

/-! ## Answers with a property -/

namespace Inquiry

variable {α β : Type} {t : Tree} {known : NodeId → Ty → Prop} {x : Inquiry α} {P Q : α → Prop}

/-- The answer has the property, whatever the types are that are known of the nodes asked for. -/
def Yields (t : Tree) (known : NodeId → Ty → Prop) : Inquiry α → (α → Prop) → Prop
  | answer value, P => P value
  | typeOf id next, P => ∀ type, known id type → (next type).Yields t known P
  | resolve reference next, P => (next (t.resolve reference)).Yields t known P

theorem Yields.mono (h : x.Yields t known P) (himp : ∀ v, P v → Q v) : x.Yields t known Q := by
  induction x with
  | answer value => exact himp value h
  | typeOf id next ih => exact fun type hk => ih type (h type hk)
  | resolve reference next ih => exact ih _ h

theorem yields_lookUp {reference : NodeId} {rest : Option Definition → Inquiry α} :
    (lookUp reference >>= rest).Yields t known P ↔
      (rest (t.resolve reference)).Yields t known P := Iff.rfl

theorem yields_of_forall (h : ∀ v, P v) : x.Yields t known P := by
  induction x with
  | answer value => exact h value
  | typeOf id next ih => exact fun type _ => ih type
  | resolve reference next ih => exact ih _

/-- One inquiry and then another. -/
theorem Yields.bind {rest : α → Inquiry β} {R : β → Prop}
    (h : x.Yields t known fun v => (rest v).Yields t known R) : (x >>= rest).Yields t known R := by
  induction x with
  | answer value => exact h
  | typeOf id next ih => exact fun type hk => ih type (h type hk)
  | resolve reference next ih => exact ih _ h

theorem yields_valueType {subject : NodeId} {rest : Ty → Inquiry β} {R : β → Prop}
    (h : ∀ type, known subject type → (rest type.carried).Yields t known R) :
    (valueType subject >>= rest).Yields t known R := fun type hk => h type hk

theorem Concludes.yields {v : α} (h : x.Concludes t known v) (hy : x.Yields t known P) : P v := by
  induction x with
  | answer value => exact (show value = v from h) ▸ hy
  | typeOf id next ih =>
    obtain ⟨type, hk, hnext⟩ := h
    exact ih type hnext (hy type hk)
  | resolve reference next ih => exact ih _ h hy

/-- What a context answers has the property, if the types that it gives are among the known. -/
theorem Yields.of_follow {a : Analysis} {types : NodeId → Consulting Ty} {c c' : Context} {v : α}
    (hy : x.Yields t known P)
    (htypes : ∀ id type c c', c.Sound t a → (types id).run c = some (type, c') →
      known id type ∧ c'.Sound t a)
    (hc : c.Sound t a) (h : (x.follow types (Context.resolve t)).run c = some (v, c')) : P v := by
  induction x generalizing c with
  | answer value =>
    obtain ⟨rfl, -⟩ : value = v ∧ c = c' := by simpa [follow] using h
    exact hy
  | typeOf id next ih =>
    obtain ⟨type, now, hrun, hnext⟩ := run_follow_typeOf.1 h
    obtain ⟨hk, hnow⟩ := htypes id type c now hc hrun
    exact ih type (hy type hk) hnow hnext
  | resolve reference next ih =>
    obtain ⟨now, hadv, hrun⟩ := run_follow_resolve hc
    rw [hrun] at h
    exact ih _ hy hadv.sound h

end Inquiry

/-! ## Narrowing -/

namespace Tree

/-- The test comes out so for a value of the type, if narrowing takes it for a test of the
member. -/
def Agrees (t : Tree) (counts : NodeId → Prop) (given : Ty) (test : NodeId) (outcome : Bool) : Prop :=
  ∀ expression tested, t.construct test = .typeTest expression tested → counts expression →
    (t.annotationType test tested).isPlain = true ∧
      (t.annotationType test tested).accepts given = outcome

/-- Narrowing can take the condition's outcome for true of a value of the type. -/
def Admits (t : Tree) (counts : NodeId → Prop) (given : Ty) (condition : NodeId) (truth : Bool) :
    Prop :=
  ∀ test outcome, t.Entails condition truth test outcome → t.Agrees counts given test outcome

end Tree

namespace Inquiry

variable {t : Tree} {known : NodeId → Ty → Prop} {access member : NodeId} {given : Ty}
  {counts : NodeId → Prop}

/-- Conditionals that narrowing looks at have the access in the branch that it says. -/
theorem guards_yield (w : t.WellFormed) (hr : t.Reaches access) {ancestors : List NodeId}
    (ha : ∀ ancestor ∈ ancestors, t.Reaches ancestor) :
    (guards t access member ancestors).Yields t known fun found =>
      ∀ guard ∈ found, t.OnlyIf guard.1 guard.2 access := by
  induction ancestors with
  | nil => exact fun _ h => absurd h List.not_mem_nil
  | cons ancestor rest ih =>
    have hrest := ih fun other ho => ha other (List.mem_cons_of_mem _ ho)
    unfold guards
    split
    · rename_i condition yes no hc
      obtain ⟨hyes, hno⟩ := w.onlyIf_of_conditional hr (ha ancestor (by simp)) hc
      dsimp only
      split
      · exact hrest
      · rename_i hin
        have hbranch : t.OnlyIf condition (t.isWithin access yes) access := by
          cases hy : t.isWithin access yes with
          | true => exact hyes hy
          | false => exact hno (by simpa [hy] using hin)
        refine Yields.bind (yields_of_forall fun tests => Yields.bind (hrest.mono fun outer ho => ?_))
        show ∀ guard ∈ (if tests then outer ++ [(condition, t.isWithin access yes)] else outer), _
        intro guard hguard
        split at hguard
        · rcases List.mem_append.1 hguard with h | h
          · exact ho guard h
          · rw [List.mem_singleton.1 h]
            exact hbranch
        · exact ho guard hguard
    · exact hrest

section
variable (hcounts : ∀ expression, (bindingOf t expression).Yields t known fun read =>
    read = some member → counts expression) (hg : given.isSingle = true)
include hcounts hg

/-- A condition that has come out so leaves a member for the type of the value. -/
theorem refine_yields {fuel : Nat} {condition : NodeId} {truth : Bool}
    (ht : t.Admits counts given condition truth) {possible : TypeSet}
    (hp : possible.Plain) (hin : possible.contains given = true) :
    (refine t member fuel condition truth possible).Yields t known fun left =>
      left.Plain ∧ left.contains given = true := by
  induction fuel generalizing condition truth possible with
  | zero => exact ⟨hp, hin⟩
  | succ fuel ih =>
    unfold refine
    split
    · rename_i expression tested hc
      refine Yields.bind ((hcounts expression).mono fun read hread => ?_)
      split
      · rename_i hmember
        obtain ⟨hplain, ha⟩ := ht condition truth (.test truth hc) _ _ hc (hread hmember)
        cases truth with
        | true => exact TypeSet.contains_intersection hp hplain hg hin ha
        | false => exact TypeSet.contains_difference hp hg hin ha
      · exact ⟨hp, hin⟩
    · rename_i operand hc
      exact ih (fun test outcome he => ht test outcome (.not hc he)) hp hin
    · rename_i left right hc
      split
      · rename_i htrue
        subst htrue
        have hl := fun test outcome he => ht test outcome (.andLeft hc he)
        have hr := fun test outcome he => ht test outcome (.andRight hc he)
        exact Yields.bind ((ih hl hp hin).mono fun left hleft => ih hr hleft.1 hleft.2)
      · exact ⟨hp, hin⟩
    · rename_i left right hc
      split
      · exact ⟨hp, hin⟩
      · rename_i hfalse
        obtain rfl : truth = false := by simpa using hfalse
        have hl := fun test outcome he => ht test outcome (.orLeft hc he)
        have hr := fun test outcome he => ht test outcome (.orRight hc he)
        exact Yields.bind ((ih hl hp hin).mono fun left hleft => ih hr hleft.1 hleft.2)
    · exact ⟨hp, hin⟩

theorem refineAll_yields {guards : List (NodeId × Bool)}
    (ht : ∀ guard ∈ guards, t.Admits counts given guard.1 guard.2) {possible : TypeSet}
    (hp : possible.Plain) (hin : possible.contains given = true) :
    (refineAll t member guards possible).Yields t known fun left =>
      left.contains given = true := by
  induction guards generalizing possible with
  | nil => exact hin
  | cons guard rest ih =>
    exact Yields.bind ((refine_yields hcounts hg (ht guard (by simp)) hp hin).mono fun left hleft =>
      ih (fun other ho => ht other (List.mem_cons_of_mem _ ho)) hleft.1 hleft.2)

/-- What is left of a declared type accepts the type of a value that the declared type accepts, if
the conditions around the access have come out as for this value. -/
theorem narrow_yields (w : t.WellFormed) (hr : t.Reaches access) {declared : Ty}
    (hplain : declared.isPlain = true) (ha : declared.accepts given = true)
    (ht : ∀ condition truth, t.OnlyIf condition truth access →
      t.Admits counts given condition truth) :
    (narrow t access member declared).Yields t known fun type => type.accepts given = true := by
  unfold narrow
  split
  · have hancestors : ∀ ancestor ∈ t.ancestors access, t.Reaches ancestor := fun _ h =>
      w.ancestorsFrom_reaches hr _ h
    refine Yields.bind ((guards_yield w hr hancestors).mono fun found hfound => ?_)
    split
    · exact ha
    · refine Yields.bind ((refineAll_yields hcounts hg (fun guard hguard => ?_)
        (TypeSet.plain_ofType hplain) (TypeSet.contains_ofType hg hplain ha)).mono
          fun left hleft => TypeSet.fold_accepts hleft)
      exact ht _ _ (hfound guard hguard)
  · exact ha

end
end Inquiry

/-! ## The type of a property -/

section
open Context

variable {t : Tree} {a : Analysis} {access subject : NodeId} {name : String}

/-- A property whose subject's type is being determined has the type of a cycle. -/
theorem Inquiry.run_follow_property (hc : t.construct access = .property subject name)
    {visiting : List NodeId} (hin : subject ∈ visiting) (hfree : ∀ k type, ¬ t.DerivesIn k subject type)
    {fuel : Nat} {c c' : Context} (hs : c.Sound t a) {type : Ty}
    (h : ((Inquiry.typeRule t access).follow (t.recallType fuel visiting) (Context.resolve t)).run c =
      some (type, c')) : type = .unknown .cycle := by
  rw [show Inquiry.typeRule t access = Inquiry.propertyType t access subject name by
    rw [Inquiry.typeRule, hc]] at h
  obtain ⟨given, now, hrun, hnext⟩ := Inquiry.run_follow_typeOf.1 h
  cases fuel with
  | zero => cases hrun
  | succ fuel =>
    rcases Tree.recallType_cases hrun with ⟨hf, -⟩ | ⟨-, -, rfl, -⟩ | ⟨-, hout, -⟩
    · obtain ⟨k, hk⟩ := hs.types subject given hf
      exact absurd hk (hfree k given)
    · have hanswer : some (Ty.unknown .cycle, now) = some (type, c') := hnext
      cases hanswer
      rfl
    · exact absurd hin hout

/-- Where the types of a property and of its subject depend on themselves, and the type of the
subject is being determined, it makes no difference if that of the property is being determined. -/
theorem Tree.recallType_beside (hc : t.construct access = .property subject name)
    (hcyclic : ∀ k type, ¬ t.DerivesIn k access type) {fuel fuel' : Nat}
    {visiting visiting' : List NodeId} (hin : subject ∈ visiting)
    (hfree : ∀ v ∈ visiting, ∀ k type, ¬ t.DerivesIn k v type)
    (hsame : ∀ v, v ∈ visiting' ↔ v = access ∨ v ∈ visiting) {id : NodeId} {type type' : Ty}
    {c₁ c₂ c₁' c₂' : Context} (h₁ : c₁.Sound t a) (h₂ : c₂.Sound t a)
    (hrun₁ : (t.recallType fuel visiting id).run c₁ = some (type, c₁'))
    (hrun₂ : (t.recallType fuel' visiting' id).run c₂ = some (type', c₂')) : type = type' := by
  induction fuel generalizing fuel' visiting visiting' id type type' c₁ c₂ c₁' c₂' with
  | zero => cases hrun₁
  | succ fuel ih =>
    have hfree' : ∀ v ∈ visiting', ∀ k type, ¬ t.DerivesIn k v type := fun v hv =>
      ((hsame v).1 hv).elim (fun h => h ▸ hcyclic) (hfree v)
    by_cases hd : ∃ k derived, t.DerivesIn k id derived
    · obtain ⟨k, derived, hd⟩ := hd
      rw [recallType_derived hd (fun v hv => hfree v hv k) h₁ hrun₁,
        recallType_derived hd (fun v hv => hfree' v hv k) h₂ hrun₂]
    · cases fuel' with
      | zero => cases hrun₂
      | succ fuel' =>
      have hunnoted : ∀ {c : Context} {noted : Ty}, c.Sound t a →
          c.types.find? id ≠ some noted := fun hs hf =>
        have ⟨k, hk⟩ := hs.types id _ hf
        hd ⟨k, _, hk⟩
      rcases recallType_cases hrun₁ with ⟨hf, -⟩ | ⟨-, hv, rfl, -⟩ | ⟨-, hv, now₁, hrule₁, -⟩
      · exact absurd hf (hunnoted h₁)
      · rcases recallType_cases hrun₂ with ⟨hf, -⟩ | ⟨-, -, rfl, -⟩ | ⟨-, hv', -⟩
        · exact absurd hf (hunnoted h₂)
        · rfl
        · exact absurd ((hsame id).2 (.inr hv)) hv'
      · rcases recallType_cases hrun₂ with ⟨hf, -⟩ | ⟨-, hv', rfl, -⟩ | ⟨-, hv', now₂, hrule₂, -⟩
        · exact absurd hf (hunnoted h₂)
        · -- only the property itself is visited on one side and not on the other
          obtain rfl : id = access := ((hsame id).1 hv').resolve_right hv
          exact Inquiry.run_follow_property hc (List.mem_cons_of_mem _ hin) (hfree subject hin) h₁ hrule₁
        · refine Inquiry.follow_agrees (fun other _ _ _ _ _ _ hs₁ hs₂ hr₁ hr₂ => ?_) h₁ h₂ hrule₁ hrule₂
          refine ⟨ih (List.mem_cons_of_mem _ hin) (fun v hm k type hk => ?_) (fun v => ?_) hs₁ hs₂ hr₁
            hr₂, (recallType_sound hs₁ hr₁).sound, (recallType_sound hs₂ hr₂).sound⟩
          · rcases List.mem_cons.1 hm with rfl | hm
            · exact hd ⟨k, type, hk⟩
            · exact hfree v hm k type hk
          · rw [List.mem_cons, List.mem_cons, hsame]
            exact or_left_comm

/-- While the type of a property that depends on itself is being determined, that of its subject is
what it is. -/
theorem Tree.recallType_subject (hc : t.construct access = .property subject name)
    (hcyclic : ∀ k type, ¬ t.DerivesIn k access type) {fuel : Nat} {c c' : Context} {type : Ty}
    (hs : c.Sound t a) (h : (t.recallType fuel [access] subject).run c = some (type, c')) :
    type = (Analysis.ofTree t).typeOf subject := by
  obtain ⟨now, hrun, -⟩ := settles_typeOf t a subject c hs
  have hvisiting : ∀ v ∈ [access], ∀ k type, ¬ t.DerivesIn k v type := by
    intro v hv
    rw [List.mem_singleton.1 hv]
    exact hcyclic
  by_cases hd : ∃ k derived, t.DerivesIn k subject derived
  · obtain ⟨k, derived, hd⟩ := hd
    rw [recallType_derived hd (fun v hv => hvisiting v hv k) hs h,
      recallType_derived hd (fun v hv => absurd hv List.not_mem_nil) hs hrun]
  · have hfree : ∀ k type, ¬ t.DerivesIn k subject type := fun k type hk => hd ⟨k, type, hk⟩
    cases fuel with
    | zero => cases h
    | succ fuel =>
    rcases recallType_cases hrun with ⟨hf, -⟩ | ⟨-, hv, -⟩ | ⟨-, -, now₁, hrule₁, -⟩
    · obtain ⟨k, hk⟩ := hs.types subject _ hf
      exact absurd hk (hfree k _)
    · cases hv
    · rcases recallType_cases h with ⟨hf, -⟩ | ⟨-, hv, rfl, -⟩ | ⟨-, -, now₂, hrule₂, -⟩
      · obtain ⟨k, hk⟩ := hs.types subject _ hf
        exact absurd hk (hfree k _)
      · obtain rfl := List.mem_singleton.1 hv
        exact (Inquiry.run_follow_property hc (List.mem_singleton_self _) hfree hs hrule₁).symm
      · refine (Inquiry.follow_agrees (fun other _ _ _ _ _ _ hs₁ hs₂ hr₁ hr₂ => ?_) hs hs hrule₁
          hrule₂).symm
        refine ⟨recallType_beside hc hcyclic (List.mem_singleton_self _) (fun v hm => ?_) (fun v => ?_)
          hs₁ hs₂ hr₁ hr₂, (recallType_sound hs₁ hr₁).sound, (recallType_sound hs₂ hr₂).sound⟩
        · rw [List.mem_singleton.1 hm]
          exact hfree
        · simp [or_comm]

/-- The table has the types that are derived. -/
theorem Tree.typeOf_of_derives {id : NodeId} {k : Nat} {type : Ty} (h : t.DerivesIn k id type) :
    (Analysis.ofTree t).typeOf id = type := by
  obtain ⟨now, hrun, -⟩ := settles_typeOf t (Analysis.ofTree t) id (.fresh 0) sound_fresh
  have hfresh : (fresh 0).Sound t (Analysis.ofTree t) := sound_fresh
  exact recallType_derived h (fun v hv => absurd hv List.not_mem_nil) hfresh hrun

end

/-- A value has one type of its own, or it is not known. -/
theorem Value.typeOf_cases (v : Value) :
    v.typeOf.isSingle = true ∨ ∃ reason, v.typeOf = .unknown reason := by
  cases v with
  | exception => exact .inr ⟨_, rfl⟩
  | function callable =>
    cases callable with
    | text | stream => exact .inl rfl
    | _ => exact .inr ⟨_, rfl⟩
  | _ => exact .inl rfl

namespace Analysis

/-- Narrowing takes an expression that is tested for the member that the access reads: it reads the
member, or is a property of its name while the type of the access depends on itself. -/
def Counts (a : Analysis) (access member expression : NodeId) : Prop :=
  a.bindingOf expression = some member ∨
    (∀ k type, ¬ a.tree.DerivesIn k access type) ∧ ∃ subject name,
      a.tree.construct expression = .property subject name ∧
        (a.tree.construct member).definedName? = some name

variable {t : Tree} {known : NodeId → Ty → Prop} {access member subject : NodeId} {name : String}

/-- With the types of the table, the answer is that of the analysis. -/
theorem yields_given {α : Type} {x : Inquiry α}
    (hknown : ∀ id type, known id type → type = (ofTree t).typeOf id) :
    x.Yields t known fun v => v = (ofTree t).given x := by
  induction x with
  | answer value => exact rfl
  | typeOf id next ih =>
    intro type hk
    rw [hknown id type hk]
    exact ih _
  | resolve reference next ih => exact ih _

/-- The types that are found while that of the access is being determined: that of its subject is
the one in the table, and so are all, unless the type of the access depends on itself. -/
structure Finds (t : Tree) (access subject : NodeId) (known : NodeId → Ty → Prop) : Prop where
  subject : ∀ type, known subject type → type = (ofTree t).typeOf subject
  derived : ∀ k type, t.DerivesIn k access type →
    ∀ id type, known id type → type = (ofTree t).typeOf id

/-- A member that is found has the name of the property. -/
theorem memberOf_yields (hc : t.construct access = .property subject name) :
    (Inquiry.memberOf t access).Yields t known fun found =>
      ∀ member, found = some member → (t.construct member).definedName? = some name := by
  have hmember : ∀ {definition found : NodeId}, t.structureMember? definition name = some found →
      (t.construct found).definedName? = some name := by
    intro definition found hfound
    have hnamed : ∀ {ids : List NodeId}, t.findNamed ids name = some found →
        (t.construct found).definedName? = some name := fun h => by simpa using List.find?_some h
    unfold Tree.structureMember? at hfound
    split at hfound
    · rcases Option.or_eq_some_iff.1 hfound with h | ⟨-, h⟩
      · exact hnamed h
      · exact hnamed h
    · cases hfound
  unfold Inquiry.memberOf
  rw [hc]
  refine Inquiry.Yields.bind (Inquiry.yields_of_forall fun type => ?_)
  split
  · exact fun member hm => hmember hm
  · exact fun member hm => absurd hm nofun

theorem given_lookUp {β : Type} {reference : NodeId} {rest : Option Definition → Inquiry β} :
    (ofTree t).given (Inquiry.lookUp reference >>= rest) =
      (ofTree t).given (rest (t.resolve reference)) := rfl

theorem bindingOf_counts (hf : Finds t access subject known) (expression : NodeId) :
    (Inquiry.bindingOf t expression).Yields t known fun read =>
      read = some member → (ofTree t).Counts access member expression := by
  by_cases hd : ∃ k type, t.DerivesIn k access type
  · obtain ⟨k, type, hd⟩ := hd
    exact (yields_given (hf.derived k type hd)).mono fun read hread hm => .inl (hread.symm.trans hm)
  · have hcyclic : ∀ k type, ¬ t.DerivesIn k access type := fun k type h => hd ⟨k, type, h⟩
    cases hc : t.construct expression with
    | reference =>
      have hgiven : (Inquiry.bindingOf t expression).Yields t known fun v =>
          v = (ofTree t).bindingOf expression := by
        unfold bindingOf Inquiry.bindingOf
        simp only [tree_ofTree, hc, Inquiry.yields_lookUp, given_lookUp]
        cases t.resolve expression with
        | none => exact rfl
        | some found => cases found <;> exact rfl
      exact hgiven.mono fun read hread hm => .inl (hread.symm.trans hm)
    | property other bound =>
      unfold Inquiry.bindingOf
      rw [hc]
      refine Inquiry.Yields.bind (Inquiry.Yields.mono (P := fun found => found = some member →
        (t.construct member).definedName? = some bound) ?_ fun found hfound hm => ?_)
      · refine (memberOf_yields hc).mono fun found hfound hm => ?_
        exact hfound member hm
      · obtain ⟨hm, -⟩ := Option.filter_eq_some_iff.1 hm
        exact .inr ⟨hcyclic, other, bound, hc, hfound hm⟩
    | _ =>
      unfold Inquiry.bindingOf
      rw [hc]
      exact nofun

theorem given_valueType {β : Type} {rest : Ty → Inquiry β} : (ofTree t).given
    (Inquiry.valueType subject >>= rest) =
      (ofTree t).given (rest ((ofTree t).typeOf subject).carried) := rfl

/-- The rule for the access narrows what the member declares. -/
theorem typeRule_yields (hf : Finds t access subject known)
    (hc : t.construct access = .property subject name)
    (hm : (ofTree t).memberOf access = some member) {bound : String} {declared : Annotation}
    {value : Option NodeId} (hb : t.construct member = .binding bound (some declared) value)
    {P : Ty → Prop}
    (hn : (Inquiry.narrow t access member (t.annotationType member declared)).Yields t known P) :
    (Inquiry.typeRule t access).Yields t known P := by
  have hmember : ∃ definition bound, ((ofTree t).typeOf subject).carried =
      .instanceOf definition bound ∧ t.structureMember? definition name = some member := by
    unfold memberOf Inquiry.memberOf at hm
    simp only [tree_ofTree, hc] at hm
    rw [given_valueType] at hm
    split at hm
    · rename_i definition bound htype
      exact ⟨definition, bound, htype, hm⟩
    · cases hm
  obtain ⟨definition, structureName, htype, hmember⟩ := hmember
  rw [show Inquiry.typeRule t access = Inquiry.propertyType t access subject name by
    rw [Inquiry.typeRule, hc]]
  refine Inquiry.yields_valueType fun type hk => ?_
  obtain rfl := hf.subject type hk
  have hbinding : t.isBinding member = true := by rw [Tree.isBinding, hb]
  have hdeclared : Inquiry.declaredType t member = pure (t.annotationType member declared) := by
    rw [Inquiry.declaredType, hb]
  simp only [htype, hmember, hbinding, hdeclared, ↓reduceIte]
  exact hn

/-- The type of the access has what the narrowed type has, in every way it may be determined. -/
theorem typeOf_of_yields (hc : t.construct access = .property subject name) {P : Ty → Prop}
    (hy : ∀ known, Finds t access subject known → (Inquiry.typeRule t access).Yields t known P) :
    P ((ofTree t).typeOf access) := by
  have hfresh : (Context.fresh 0).Sound t (ofTree t) := Context.sound_fresh
  obtain ⟨now, hrun, -⟩ := Context.settles_typeOf t (ofTree t) access (.fresh 0) hfresh
  by_cases hd : ∃ k type, t.DerivesIn k access type
  · obtain ⟨k, type, hd⟩ := hd
    have htype := Tree.typeOf_of_derives hd
    cases k with
    | zero => exact hd.elim
    | succ k =>
      rw [htype]
      have hall : ∀ id type, t.DerivesIn k id type → type = (ofTree t).typeOf id :=
        fun id type h => (Tree.typeOf_of_derives h).symm
      exact Inquiry.Concludes.yields (hd : (Inquiry.typeRule t access).Concludes t _ type)
        (hy _ ⟨fun type h => hall subject type h, fun _ _ _ id type h => hall id type h⟩)
  · have hcyclic : ∀ k type, ¬ t.DerivesIn k access type := fun k type h => hd ⟨k, type, h⟩
    rcases Tree.recallType_cases hrun with ⟨hf, -⟩ | ⟨-, hv, -⟩ | ⟨-, -, now', hrule, -⟩
    · exact absurd hf (by simp [Context.fresh])
    · cases hv
    · have hfinds : Finds t access subject fun id type =>
          id = subject → type = (ofTree t).typeOf subject :=
        ⟨fun type h => h rfl, fun k type h => absurd h (hcyclic k type)⟩
      refine (hy _ hfinds).of_follow (fun id type c c' hs hr =>
        ⟨?_, (Tree.recallType_sound hs hr).sound⟩) hfresh hrule
      rintro rfl
      exact Tree.recallType_subject hc hcyclic hs hr

/-- If the conditions around an access have come out as they would for a value, the type of the
access accepts the type of the value when the declared type of the member does. -/
theorem typeOf_accepts (w : t.WellFormed) (hr : t.Reaches access)
    (hc : t.construct access = .property subject name)
    (hm : (ofTree t).memberOf access = some member) {bound : String} {declared : Annotation}
    {value : Option NodeId} (hb : t.construct member = .binding bound (some declared) value)
    (hplain : (t.annotationType member declared).isPlain = true) {v : Value}
    (ha : (t.annotationType member declared).accepts v.typeOf = true)
    (ht : ∀ condition truth, t.OnlyIf condition truth access →
      t.Admits ((ofTree t).Counts access member) v.typeOf condition truth) :
    ((ofTree t).typeOf access).accepts v.typeOf = true := by
  rcases v.typeOf_cases with hg | ⟨reason, hg⟩
  · exact typeOf_of_yields hc fun known hf => typeRule_yields hf hc hm hb
      (Inquiry.narrow_yields (bindingOf_counts hf) hg w hr hplain ha ht)
  · rw [hg]
    exact Ty.accepts_unknown _ _

end Analysis
end ReactiveLang
