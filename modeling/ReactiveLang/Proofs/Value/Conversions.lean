import ReactiveLang.Proofs.Eval.Lexical
import ReactiveLang.Proofs.Value.Items

/-!
# Built-in conversions

A built-in conversion is chosen by types alone: by that of the value and by the one that is wanted.
The conversion itself looks at the value, and refuses one of another kind. The type of what it makes
is declared beforehand, from the type of the value.

* `takes_of_find?`: a conversion that is chosen for the type of a value takes values of its kind.
* `Takes.exists_apply`: what takes a value converts it, to a value of the type that is declared.
* `setOf_accepted`: the type of the set of some items is accepted by the type that the items have,
  with those that the set leaves out.
-/

namespace ReactiveLang

namespace Value

/-- The type of some items accepts that of any selection of them, in any order and number. -/
theorem itemType_accepts_of_subset {types others : List Ty} (h : others ⊆ types) :
    (itemType types).accepts (itemType others) = true := by
  rw [itemType_eq others, TypeSet.accepts_fold]
  exact fun member hm => itemType_accepts (h (TypeSet.mem_of_mem_ofList hm))

/-- A set is of the type that its items have together with those that are left out of it. -/
theorem setOf_accepted (items : List Value) :
    (Ty.set (itemType (typesOf items))).accepts (setOf items).typeOf = true := by
  rw [setOf, typeOf, typesOf_eq, typesOf_eq]
  refine (Ty.Fits.set (itemType_accepts_of_subset (List.map_subset _ fun v hv => ?_))).accepts
  exact (mem_foldl_addItem hv).resolve_left List.not_mem_nil

/-- The type of a list of texts is accepted as that of a list of texts, also if there are none. -/
theorem texts_accepted (texts : List String) :
    (Ty.list .text).accepts (list (texts.map .text)).typeOf = true := by
  rw [typeOf, typesOf_eq, List.map_map]
  refine (Ty.Fits.list ?_).accepts
  rw [itemType_eq, TypeSet.accepts_fold]
  intro member hm
  obtain ⟨s, -, rfl⟩ := List.mem_map.1 (TypeSet.mem_of_mem_ofList hm)
  exact Ty.accepts_self _

end Value

namespace NativeConversion

/-- The conversion is one of values of that kind. -/
def Takes : NativeConversion → Value → Prop
  | textToList, v | textToNumber, v => ∃ s, v = .text s
  | numberToText, v => ∃ x unit, v = .measurement x unit
  | booleanToText, v => ∃ b, v = .boolean b
  | listToSet, v => ∃ items, v = .list items
  | setToList, v => ∃ items, v = .set items

variable {c : NativeConversion} {v : Value} {target : Ty}

/-- The type of a value tells its kind, as far as conversions are chosen by it. -/
theorem takes_of_find? (h : find? v.typeOf target = some c) : c.Takes v := by
  cases v with
  | text s =>
    cases target with
    | list item =>
      obtain ⟨-, rfl⟩ : item.accepts .text = true ∧ textToList = c := by
        simpa [find?, Value.typeOf] using h
      exact ⟨s, rfl⟩
    | measurement unit =>
      cases h
      exact ⟨s, rfl⟩
    | _ => cases h
  | measurement x unit =>
    cases target with
    | text =>
      cases h
      exact ⟨x, unit, rfl⟩
    | _ => cases h
  | boolean b =>
    cases target with
    | text =>
      cases h
      exact ⟨b, rfl⟩
    | _ => cases h
  | list items =>
    cases target with
    | set item =>
      obtain ⟨-, rfl⟩ : item.accepts (Value.itemType (Value.typesOf items)) = true ∧ listToSet = c := by
        simpa [find?, Value.typeOf] using h
      exact ⟨items, rfl⟩
    | _ => cases h
  | set items =>
    cases target with
    | list item =>
      obtain ⟨-, rfl⟩ : item.accepts (Value.itemType (Value.typesOf items)) = true ∧ setToList = c := by
        simpa [find?, Value.typeOf] using h
      exact ⟨items, rfl⟩
    | _ => cases h
  | function callable => cases callable <;> cases h
  | _ => cases h

/-- A value that the conversion takes is converted, to one of the type that is declared for it. -/
theorem Takes.exists_apply (h : c.Takes v) :
    ∃ w, c.apply v = .ok w ∧ (c.outputType v.typeOf).accepts w.typeOf = true := by
  cases c with
  | textToList =>
    obtain ⟨s, rfl⟩ := h
    refine ⟨_, rfl, ?_⟩
    have htexts := Value.texts_accepted (s.toList.map String.singleton)
    rwa [List.map_map] at htexts
  | textToNumber =>
    obtain ⟨s, rfl⟩ := h
    refine ⟨_, rfl, ?_⟩
    cases Number.parse? (Text.trim s) with
    | none => exact Ty.union_accepts_right (Ty.accepts_self _) _
    | some x => exact Ty.union_accepts_left (Ty.accepts_self _) _
  | numberToText =>
    obtain ⟨x, unit, rfl⟩ := h
    exact ⟨_, rfl, Ty.accepts_self _⟩
  | booleanToText =>
    obtain ⟨b, rfl⟩ := h
    exact ⟨_, rfl, Ty.accepts_self _⟩
  | listToSet =>
    obtain ⟨items, rfl⟩ := h
    exact ⟨_, rfl, Value.setOf_accepted items⟩
  | setToList =>
    obtain ⟨items, rfl⟩ := h
    exact ⟨_, rfl, Ty.accepts_self _⟩

end NativeConversion

namespace Tree

variable {t : Tree} {v : Value} {target output : Ty} {node : NodeId} {c : NativeConversion}

/-- A built-in conversion is found by the type of the value itself: at run time no type is a
union. -/
theorem find?_of_conversion? (h : t.conversion? v.typeOf target node = some ⟨.native c, output⟩) :
    NativeConversion.find? v.typeOf target = some c ∧ output = c.outputType v.typeOf := by
  obtain ⟨-, ⟨considered, -, hat⟩ | ⟨member, hm, hnative⟩⟩ := conversion?_found h
  · obtain ⟨hdefined, -⟩ := definedConversionAt?_cases hat
    cases hdefined
  · rw [Value.members_typeOf] at hm
    obtain rfl := List.mem_singleton.1 hm
    obtain ⟨chosen, hchosen, heq⟩ := nativeConversion?_cases hnative
    cases heq
    exact ⟨hchosen, rfl⟩

end Tree

/-- A built-in conversion that is chosen for the type of a value and the one that is wanted never
fails on the value, and what it makes of it is of the type that is declared for the conversion from
that type. So at a node that converts, wherever the choice falls on a built-in conversion, there is a
value, of the type that the choice has told. -/
theorem conversions_sound (v : Value) (target : Ty) :
    (∀ c, NativeConversion.find? v.typeOf target = some c →
      ∃ w, c.apply v = .ok w ∧ (c.outputType v.typeOf).accepts w.typeOf = true) ∧
    ∀ (w : World) (node : NodeId) (c : NativeConversion) (output : Ty),
      target.accepts v.typeOf = false →
      w.tree.conversion? v.typeOf target node = some ⟨.native c, output⟩ →
      ∃ converted, w.convertOutcome node v target = .ok (.value converted) ∧
        output.accepts converted.typeOf = true := by
  refine ⟨fun c h => (NativeConversion.takes_of_find? h).exists_apply,
    fun w node c output hneeded hc => ?_⟩
  obtain ⟨hfound, rfl⟩ := Tree.find?_of_conversion? hc
  obtain ⟨converted, happly, haccepts⟩ := (NativeConversion.takes_of_find? hfound).exists_apply
  refine ⟨converted, ?_, haccepts⟩
  rw [World.convertOutcome, hneeded, if_neg Bool.false_ne_true, hc]
  dsimp only
  rw [happly]
  rfl

/-- A list of lists, of which two are equal, and a function, whose type is not known: to a set, of
which the second list is left out. A text that is no number becomes nothing, although numbers were
wanted. -/
theorem conversions_sound_lists :
    let v := Value.list [.list [], .list [.number 1], .list [], .function (.function ⟨2⟩ .root)]
    let target := Ty.set (.list .number)
    let t : Tree := ⟨#[], #[], ⟨0⟩⟩
    let w : World := ⟨.ofTree t .default, .first, .empty, false⟩
    (NativeConversion.find? v.typeOf target = some .listToSet ∧
      ∃ u, NativeConversion.listToSet.apply v = .ok u ∧
        (Ty.set (.union (.list .never) (.list .number))).accepts u.typeOf = true) ∧
      Ty.number.accepts (Value.text "x").typeOf = false ∧
      w.tree.conversion? (Value.text "x").typeOf .number ⟨0⟩ =
        some ⟨.native .textToNumber, .union .number .nothing⟩ ∧
      ∃ converted, w.convertOutcome ⟨0⟩ (.text "x") .number = .ok (.value converted) ∧
        (Ty.union .number .nothing).accepts converted.typeOf = true := by
  intro v target t w
  have hfound : NativeConversion.find? v.typeOf target = some .listToSet := by decide +kernel
  have htype : NativeConversion.listToSet.outputType v.typeOf =
      .set (.union (.list .never) (.list .number)) := by decide +kernel
  have hneeded : Ty.number.accepts (Value.text "x").typeOf = false := by decide +kernel
  have hlist := (conversions_sound v target).1 _ hfound
  rw [htype] at hlist
  exact ⟨⟨hfound, hlist⟩, hneeded, rfl,
    (conversions_sound (.text "x") .number).2 w ⟨0⟩ _ _ hneeded rfl⟩

end ReactiveLang
