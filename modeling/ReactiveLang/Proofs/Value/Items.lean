import ReactiveLang.Proofs.Types.Joining
import ReactiveLang.Proofs.Value.Induction
import ReactiveLang.Proofs.Value.Proper

/-!
# What the type of a collection tells of its items

A collection has one type for all of its items, made of their types one by one: a type that an
earlier one accepts is left out. Nothing is known of the type of a function of the program, and it
accepts any other, so that the items after it leave no trace in the type of the collection. An item
is shown if the definite part of that type accepts its type (`Shown`); just those that are not shown
escape a type test of the collection.

* `Ty.definite`: a type without its unknown parts.
* `accepts_itemType`: which types accept the type of the items of a collection.
* `exists_accepts_of_not_shown`: an item that is not shown escapes a type test.
* `shown_of_typed`: every item is shown where all types are known.
-/

namespace ReactiveLang

namespace Ty

/-- The type with no values where it is unknown. -/
def definite : Ty → Ty
  | unknown _ => never
  | list item => list item.definite
  | set item => set item.definite
  | stream item => stream item.definite
  | map key value => map key.definite value.definite
  | union a b => union a.definite b.definite
  | t => t

variable {a b : Ty}

theorem definite_of_isKnown : ∀ {t : Ty}, t.isKnown = true → t.definite = t
  | list item, h | set item, h | stream item, h => by
    have hitem : item.isKnown = true := h
    rw [definite, definite_of_isKnown hitem]
  | map a b, h | union a b, h => by
    obtain ⟨ha, hb⟩ := Bool.and_eq_true_iff.1 h
    rw [definite, definite_of_isKnown ha, definite_of_isKnown hb]
  | boolean, _ | text, _ | nothing, _ | never, _ | measurement _, _ | instanceOf _ _, _
  | function _ _, _ => rfl

/-- An unknown part of a type is accepted by whatever stands in its place. -/
theorem definite_accepts_self : ∀ t : Ty, t.definite.accepts t = true
  | unknown reason => never.accepts_unknown reason
  | list item => (Fits.list (definite_accepts_self item)).accepts
  | set item => (Fits.set (definite_accepts_self item)).accepts
  | stream item => (Fits.stream (definite_accepts_self item)).accepts
  | map key value => (Fits.map (definite_accepts_self key) (definite_accepts_self value)).accepts
  | union a b => by
    rw [definite, accepts_union, Bool.and_eq_true]
    exact ⟨union_accepts_left (definite_accepts_self a) _,
      union_accepts_right (definite_accepts_self b) _⟩
  | boolean | text | nothing | never | measurement _ | instanceOf _ _ | function _ _ =>
    accepts_self _

/-- A single type is accepted where another one is, if it fits wherever that one does. -/
theorem accepts_of_fits (ha : a.isSingle = true) (hb : b.isSingle = true)
    (h : ∀ u, Fits u a → Fits u b) : ∀ {t : Ty}, t.accepts a = true → t.accepts b = true
  | unknown reason, _ => unknown_accepts reason b
  | never, ht => by
    rw [never_accepts ha] at ht
    cases ht
  | union l r, ht => by
    rw [union_accepts ha, Bool.or_eq_true] at ht
    rw [union_accepts hb, Bool.or_eq_true]
    exact ht.imp (accepts_of_fits ha hb h) (accepts_of_fits ha hb h)
  | boolean, ht | text, ht | nothing, ht | measurement _, ht | list _, ht | set _, ht | stream _, ht
  | map _ _, ht | instanceOf _ _, ht | function _ _, ht =>
    (h _ (fits_of_accepts rfl ha ht)).accepts

/-- What accepts a type accepts its definite part. -/
theorem accepts_definite : ∀ {t a : Ty}, a.accepts t = true → a.accepts t.definite = true
  | unknown _, a, _ => a.accepts_never
  | list item, a, h => accepts_of_fits (a := list item) rfl rfl (fun u hu => by
      cases hu with
      | list hitem => exact .list (accepts_definite hitem)) h
  | set item, a, h => accepts_of_fits (a := set item) rfl rfl (fun u hu => by
      cases hu with
      | set hitem => exact .set (accepts_definite hitem)) h
  | stream item, a, h => accepts_of_fits (a := stream item) rfl rfl (fun u hu => by
      cases hu with
      | stream hitem => exact .stream (accepts_definite hitem)) h
  | map key value, a, h => accepts_of_fits (a := map key value) rfl rfl (fun u hu => by
      cases hu with
      | map hkey hvalue => exact .map (accepts_definite hkey) (accepts_definite hvalue)) h
  | union l r, a, h => by
    rw [accepts_union, Bool.and_eq_true] at h
    exact accepts_union_of_sides (accepts_definite h.1) (accepts_definite h.2)
  | boolean, _, h | text, _, h | nothing, _, h | never, _, h | measurement _, _, h
  | instanceOf _ _, _, h | function _ _, _, h => h

end Ty

namespace TypeSet

theorem definite_foldTypes : ∀ types : List Ty,
    (foldTypes types).definite = foldTypes (types.map Ty.definite)
  | [] => rfl
  | [_] => rfl
  | t :: next :: rest => congrArg (Ty.union t.definite) (definite_foldTypes (next :: rest))

end TypeSet

namespace Value

open TypeSet

/-- The type of items is what the set of their types folds to; no items have the empty type. -/
theorem itemType_eq (types : List Ty) : itemType types = (ofList types).fold := by
  unfold itemType
  by_cases hne : types = []
  · subst hne
    rfl
  · rw [Ty.unionOf?_eq hne]
    rfl

section
variable {types : List Ty} {t : Ty}

theorem itemType_accepts (h : t ∈ types) : (itemType types).accepts t = true := by
  rw [itemType_eq]
  exact fold_ofList_accepts h

theorem isKnown_itemType (h : ∀ t ∈ types, t.isKnown = true) : (itemType types).isKnown = true := by
  rw [itemType_eq]
  exact isKnown_foldTypes fun member hm => h member (mem_of_mem_ofList hm)

theorem definite_itemType :
    (itemType types).definite = foldTypes ((ofList types).types.map Ty.definite) := by
  rw [itemType_eq]
  exact definite_foldTypes _

theorem isKnown_definite_itemType (h : ∀ t ∈ types, t.definite.isKnown = true) :
    (itemType types).definite.isKnown = true := by
  rw [definite_itemType]
  refine isKnown_foldTypes fun member hm => ?_
  obtain ⟨t, ht, rfl⟩ := List.mem_map.1 hm
  exact h t (mem_of_mem_ofList ht)

/-- The definite part of the type accepts each type that has not been left out. -/
theorem definite_itemType_accepts (h : t ∈ (ofList types).types) :
    (itemType types).definite.accepts t = true := by
  rw [definite_itemType]
  have hin : (⟨(ofList types).types.map Ty.definite⟩ : TypeSet).contains t = true :=
    contains_iff.2 ⟨t.definite, List.mem_map_of_mem h, t.definite_accepts_self⟩
  exact fold_accepts hin

end

/-- The definite part of a value's type has no unknown part: the functions that have a type have one
without. -/
theorem isKnown_definite_typeOf (v : Value) : v.typeOf.definite.isKnown = true := by
  induction v using induct with
  | list items ih | set items ih =>
    rw [typeOf, typesOf_eq]
    exact isKnown_definite_itemType (List.forall_mem_map.2 ih)
  | map entries ih =>
    rw [typeOf, keyTypes_eq, contentTypes_eq, Ty.definite, Ty.isKnown, Bool.and_eq_true]
    exact ⟨isKnown_definite_itemType (List.forall_mem_map.2 fun e he => (ih e he).1),
      isKnown_definite_itemType (List.forall_mem_map.2 fun e he => (ih e he).2)⟩
  | function callable =>
    cases callable with
    | text method => cases method <;> rfl
    | stream kind => cases kind; rfl
    | _ => rfl
  | _ => rfl

/-- The definite part of the type of the items accepts the item's type. -/
def Shown (items : List Value) (v : Value) : Prop :=
  (itemType (items.map typeOf)).definite.accepts v.typeOf = true

variable {items : List Value} {v : Value}

/-- The type of the items is accepted by the types that accept the type of every item that is
shown. -/
theorem accepts_itemType (t : Ty) : t.accepts (itemType (items.map typeOf)) = true ↔
    ∀ v ∈ items, Shown items v → t.accepts v.typeOf = true := by
  have hknown : (itemType (items.map typeOf)).definite.isKnown = true :=
    isKnown_definite_itemType (List.forall_mem_map.2 fun v _ => isKnown_definite_typeOf v)
  constructor
  · exact fun h v _ hshown => Ty.accepts_trans hknown (Ty.accepts_definite h) hshown
  · intro h
    rw [itemType_eq, accepts_fold]
    intro member hm
    obtain ⟨v, hv, rfl⟩ := List.mem_map.1 (mem_of_mem_ofList hm)
    exact h v hv (definite_itemType_accepts hm)

theorem accepts_typeOf_list (t : Ty) : (Ty.list t).accepts (list items).typeOf = true ↔
    ∀ v ∈ items, Shown items v → t.accepts v.typeOf = true := by
  rw [typeOf, typesOf_eq, Ty.accepts, accepts_itemType]

theorem accepts_typeOf_set (t : Ty) : (Ty.set t).accepts (set items).typeOf = true ↔
    ∀ v ∈ items, Shown items v → t.accepts v.typeOf = true := by
  rw [typeOf, typesOf_eq, Ty.accepts, accepts_itemType]

theorem accepts_typeOf_map (key value : Ty) {entries : List (Value × Value)} :
    (Ty.map key value).accepts (map entries).typeOf = true ↔
      (∀ e ∈ entries, Shown (entries.map (·.1)) e.1 → key.accepts e.1.typeOf = true) ∧
        ∀ e ∈ entries, Shown (entries.map (·.2)) e.2 → value.accepts e.2.typeOf = true := by
  have hkeys : key.accepts (itemType ((entries.map (·.1)).map typeOf)) = true ↔ _ :=
    accepts_itemType key
  have hvalues : value.accepts (itemType ((entries.map (·.2)).map typeOf)) = true ↔ _ :=
    accepts_itemType value
  rw [List.map_map, List.forall_mem_map] at hkeys hvalues
  rw [typeOf, keyTypes_eq, contentTypes_eq, Ty.accepts, Bool.and_eq_true]
  exact and_congr hkeys hvalues

/-- Some type accepts that of the items, but not that of an item which is not shown. -/
theorem exists_accepts_of_not_shown (h : ¬ Shown items v) :
    ∃ t : Ty, t.accepts (itemType (items.map typeOf)) = true ∧ t.accepts v.typeOf = false :=
  ⟨_, Ty.definite_accepts_self _, Bool.eq_false_iff.2 h⟩

/-- A value of a type that is known at run time. -/
def Typed : Value → Prop
  | function callable => callable.definition? = none
  | stream _ | exception _ _ => False
  | _ => True

/-- What a collection holds itself: its items, or its keys and values. -/
def contents : Value → List Value
  | list items | set items => items
  | map entries => entries.flatMap fun e => [e.1, e.2]
  | _ => []

/-- The type of the value is known at run time, and so are those of what a collection holds, at any
depth. An instance may have bound anything. -/
inductive Transparent : Value → Prop where
  | mk {v : Value} (typed : v.Typed) (contents : ∀ u ∈ v.contents, Transparent u) : Transparent v

theorem forall_mem_contents_map {P : Value → Prop} {entries : List (Value × Value)} :
    (∀ u ∈ (map entries).contents, P u) ↔ ∀ e ∈ entries, P e.1 ∧ P e.2 := by
  rw [contents, List.forall_mem_flatMap]
  simp

theorem Transparent.isKnown_typeOf (h : v.Transparent) : v.typeOf.isKnown = true := by
  induction h with
  | @mk v typed _ ih =>
    cases v with
    | list items | set items =>
      rw [typeOf, typesOf_eq]
      exact isKnown_itemType (List.forall_mem_map.2 ih)
    | map entries =>
      have hentries := forall_mem_contents_map.1 ih
      rw [typeOf, keyTypes_eq, contentTypes_eq, Ty.isKnown, Bool.and_eq_true]
      exact ⟨isKnown_itemType (List.forall_mem_map.2 fun e he => (hentries e he).1),
        isKnown_itemType (List.forall_mem_map.2 fun e he => (hentries e he).2)⟩
    | function callable =>
      have hnone : callable.definition? = none := typed
      cases callable with
      | text method => cases method <;> rfl
      | stream kind => cases kind; rfl
      | _ => cases hnone
    | stream id => exact typed.elim
    | exception kind node => exact typed.elim
    | _ => rfl

theorem Everywhere.transparent (h : v.Everywhere Typed) : v.Transparent := by
  induction v using induct with
  | list items ih | set items ih =>
    exact .mk trivial fun v hv => ih v hv ((everywhere_iff.1 h).2 v hv)
  | map entries ih =>
    have hentries := (everywhere_map.1 h).2
    exact .mk trivial (forall_mem_contents_map.2 fun e he =>
      ⟨(ih e he).1 (hentries e he).1, (ih e he).2 (hentries e he).2⟩)
  | _ => exact .mk h.here nofun

theorem shown_of_isKnown (h : (itemType (items.map typeOf)).isKnown = true) (hv : v ∈ items) :
    Shown items v := by
  rw [Shown, Ty.definite_of_isKnown h]
  exact itemType_accepts (List.mem_map_of_mem hv)

/-- Every item is shown if all types are known. -/
theorem shown_of_typed (h : ∀ v ∈ items, v.Everywhere Typed) (hv : v ∈ items) : Shown items v :=
  shown_of_isKnown (isKnown_itemType
    (List.forall_mem_map.2 fun u hu => (h u hu).transparent.isKnown_typeOf)) hv

end Value
end ReactiveLang
