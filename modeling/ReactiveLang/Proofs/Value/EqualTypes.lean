import ReactiveLang.Proofs.Session.ItemTests
import ReactiveLang.Proofs.Types.Laws
import ReactiveLang.Proofs.Value.Equality

/-!
# The types of equal values

Equal sets and maps may list their items in different orders, and so their types may be different
expressions: a type that is accepted by an earlier one leaves no trace, but leaves one if it comes
first. The types accept each other all the same, and so nothing that looks at types alone can tell
equal values apart.

* `typeOf_accepts_typeOf`: the type of a value accepts those of the values that it equals.
* `Ty.Alike`: types that are accepted by the same types. Conversions are chosen alike for them
  (`Tree.conversion?_alike`).
* `same_indistinguishable`: no type test and no choice of a conversion tells equal values apart.
-/

namespace ReactiveLang

/-! ## Types that are accepted alike -/

namespace Ty

/-- The same types accept the two. -/
def Alike (a b : Ty) : Prop := ∀ t : Ty, t.accepts a = t.accepts b

variable {a b : Ty}

/-- Types without an unknown part are alike if they accept each other. -/
theorem alike_of_accepts (ha : a.isKnown = true) (hb : b.isKnown = true)
    (hab : a.accepts b = true) (hba : b.accepts a = true) : Alike a b := fun _ =>
  Bool.eq_iff_iff.2 ⟨fun h => accepts_trans ha h hab, fun h => accepts_trans hb h hba⟩

/-- Single types that are alike are of one kind. -/
theorem Alike.fits (h : Alike a b) (ha : a.isSingle = true) (hb : b.isSingle = true) : Fits a b :=
  fits_of_accepts ha hb ((h a).symm.trans (accepts_self a))

theorem isUnknown_of_isSingle (h : a.isSingle = true) : a.isUnknown = false := by
  cases a <;> first | rfl | cases h

theorem members_of_isSingle (h : a.isSingle = true) : a.members = [a] :=
  members_of_ne_union fun l r heq => by
    rw [heq] at h
    cases h

end Ty

namespace NativeConversion

/-- The choice among the built-in conversions is the same for types that are alike. -/
theorem find?_alike {a b : Ty} (h : Ty.Alike a b) (ha : a.isSingle = true) (hb : b.isSingle = true)
    (output : Ty) : find? a output = find? b output := by
  have hfits := h.fits ha hb
  cases hfits with
  | @list item item' _ =>
    have hitems : ∀ t : Ty, t.accepts item = t.accepts item' := fun t => by
      simpa only [Ty.accepts] using h (.list t)
    cases output <;> simp only [find?, hitems]
  | @set item item' _ =>
    have hitems : ∀ t : Ty, t.accepts item = t.accepts item' := fun t => by
      simpa only [Ty.accepts] using h (.set t)
    cases output <;> simp only [find?, hitems]
  | _ => cases output <;> rfl

end NativeConversion

namespace Tree

variable {t : Tree} {a b output : Ty}

theorem definedConversion?_alike (h : Ty.Alike a b) (statements : List NodeId) :
    t.definedConversion? statements output a = t.definedConversion? statements output b := by
  have hat : t.definedConversionAt? a output = t.definedConversionAt? b output := by
    funext statement
    unfold definedConversionAt?
    split
    · rw [h]
    · rfl
  rw [definedConversion?, definedConversion?, hat]

theorem memberConversion?_alike (h : Ty.Alike a b) (ha : a.isSingle = true)
    (hb : b.isSingle = true) : t.memberConversion? output a = t.memberConversion? output b := by
  have hfits := h.fits ha hb
  cases hfits with
  | instanceOf definition name name' => exact definedConversion?_alike h _
  | _ => rfl

/-- The same conversion is chosen for types that are alike. -/
theorem conversion?_alike (h : Ty.Alike a b) (ha : a.isSingle = true) (hb : b.isSingle = true)
    (node : NodeId) : (t.conversion? a output node).map (·.conversion) =
      (t.conversion? b output node).map (·.conversion) := by
  have hnative : (nativeConversion? output a).map (·.conversion) =
      (nativeConversion? output b).map (·.conversion) := by
    simp only [nativeConversion?, Option.map_map, NativeConversion.find?_alike h ha hb]
    rfl
  have hone : ∀ {α : Type} (f : Ty → Option α) (x : Ty), [x].findSome? f = f x := fun f x => by
    rw [List.findSome?_cons]
    cases f x <;> rfl
  simp only [conversion?, Ty.isUnknown_of_isSingle ha, Ty.isUnknown_of_isSingle hb,
    Ty.members_of_isSingle ha, Ty.members_of_isSingle hb, hone, memberConversion?_alike h ha hb,
    definedConversion?_alike h]
  split
  · rfl
  · simp only [Option.map_or, hnative]

end Tree

namespace Value

variable {layout : NodeId → List String} {a b : Value}

/-! ## Equal values -/

theorem exists_related_of_mem {R : Value → Value → Prop} {xs ys : List Value}
    (h : List.Forall₂ R xs ys) {y : Value} (hy : y ∈ ys) : ∃ x ∈ xs, R x y := by
  induction h with
  | nil => cases hy
  | @cons x z _ _ hr _ ih =>
    rcases List.mem_cons.1 hy with rfl | hy
    · exact ⟨x, List.mem_cons_self, hr⟩
    · obtain ⟨x', hx', hr'⟩ := ih hy
      exact ⟨x', List.mem_cons_of_mem x hx', hr'⟩

/-- The type of some items accepts that of others, if each of the others has a type that is accepted
by that of one of them. -/
theorem itemType_accepts_itemType {α : Type} {f : α → Value} {xs ys : List α}
    (hxs : ∀ x ∈ xs, (f x).Transparent)
    (h : ∀ y ∈ ys, ∃ x ∈ xs, (f x).typeOf.accepts (f y).typeOf = true) :
    (itemType (xs.map fun x => (f x).typeOf)).accepts (itemType (ys.map fun y => (f y).typeOf)) =
      true := by
  rw [itemType_eq (ys.map fun y => (f y).typeOf), TypeSet.accepts_fold]
  intro member hm
  obtain ⟨y, hy, rfl⟩ := List.mem_map.1 (TypeSet.mem_of_mem_ofList hm)
  obtain ⟨x, hx, hxy⟩ := h y hy
  have hin : (f x).typeOf ∈ xs.map fun x => (f x).typeOf := List.mem_map.2 ⟨x, hx, rfl⟩
  exact Ty.accepts_trans (hxs x hx).isKnown_typeOf (itemType_accepts hin) hxy

/-- The value may be anything, but what collections in it hold has a type that is known. -/
def Clear (v : Value) : Prop := ∀ u ∈ v.contents, u.Transparent

theorem Transparent.clear (h : a.Transparent) : a.Clear := by
  cases h with
  | mk _ contents => exact contents

/-- The type of a value accepts those of the values that it equals. -/
theorem typeOf_accepts_typeOf (ha : a.Everywhere (Distinct layout))
    (hb : b.Everywhere (Distinct layout)) (hca : a.Clear) (hcb : b.Clear) (h : a.Same b) :
    a.typeOf.accepts b.typeOf = true := by
  induction a using induct generalizing b with
  | list items ih =>
    obtain ⟨ys, rfl, hs⟩ := same_list_iff.1 h
    have hxs := (everywhere_list.1 ha).2
    have hys := (everywhere_list.1 hb).2
    rw [typeOf, typeOf, typesOf_eq, typesOf_eq]
    refine (Ty.Fits.list (itemType_accepts_itemType hca fun y hy => ?_)).accepts
    obtain ⟨x, hx, hxy⟩ := exists_related_of_mem hs hy
    exact ⟨x, hx, ih x hx (hxs x hx) (hys y hy) (hca x hx).clear (hcb y hy).clear hxy⟩
  | set items ih =>
    obtain ⟨ys, rfl, -, -⟩ := same_set_iff.1 h
    -- seen from the other set: each of its items equals one of these
    obtain ⟨_, ⟨⟩, -, hs⟩ := same_set_iff.1 ((comparable ha).symm _ hb h)
    have hxs := (everywhere_set.1 ha).2
    have hys := (everywhere_set.1 hb).2
    rw [typeOf, typeOf, typesOf_eq, typesOf_eq]
    refine (Ty.Fits.set (itemType_accepts_itemType hca fun y hy => ?_)).accepts
    obtain ⟨x, hx, hyx⟩ := hs y hy
    have hxy : x.Same y := (comparable (hys y hy)).symm x (hxs x hx) hyx
    exact ⟨x, hx, ih x hx (hxs x hx) (hys y hy) (hca x hx).clear (hcb y hy).clear hxy⟩
  | map entries ih =>
    obtain ⟨ys, rfl, -, -⟩ := same_map_iff.1 h
    obtain ⟨_, ⟨⟩, -, hs⟩ := same_map_iff.1 ((comparable ha).symm _ hb h)
    have hxs := (everywhere_map.1 ha).2
    have hys := (everywhere_map.1 hb).2
    have hcx := forall_mem_contents_map.1 hca
    have hcy := forall_mem_contents_map.1 hcb
    rw [typeOf, typeOf, keyTypes_eq, keyTypes_eq, contentTypes_eq, contentTypes_eq]
    refine (Ty.Fits.map (itemType_accepts_itemType (fun d hd => (hcx d hd).1) fun e he => ?_)
      (itemType_accepts_itemType (fun d hd => (hcx d hd).2) fun e he => ?_)).accepts
    · obtain ⟨d, hd, hkey, -⟩ := hs e he
      have hkeys : d.1.Same e.1 := (comparable (hys e he).1).symm d.1 (hxs d hd).1 hkey
      exact ⟨d, hd, (ih d hd).1 (hxs d hd).1 (hys e he).1 (hcx d hd).1.clear (hcy e he).1.clear hkeys⟩
    · obtain ⟨d, hd, -, hvalue⟩ := hs e he
      have hvalues : d.2.Same e.2 := (comparable (hys e he).2).symm d.2 (hxs d hd).2 hvalue
      exact ⟨d, hd,
        (ih d hd).2 (hxs d hd).2 (hys e he).2 (hcx d hd).2.clear (hcy e he).2.clear hvalues⟩
  | instanceOf object =>
    obtain ⟨y, rfl, hdef, -⟩ := same_instanceOf_iff.1 h
    rw [typeOf, typeOf, hdef]
    exact (Ty.Fits.instanceOf _ _ _).accepts
  | measurement x u =>
    cases b with
    | measurement y u' =>
      obtain ⟨-, rfl⟩ : (x == y) = true ∧ u = u' := by simpa [Same, same] using h
      exact Ty.accepts_self _
    | _ => simp [Same, same] at h
  | function f =>
    cases b with
    | function g =>
      obtain rfl : f = g := by simpa [Same, same] using h
      exact Ty.accepts_self _
    | _ => simp [Same, same] at h
  | _ => cases b <;> first | exact Ty.accepts_self _ | simp [Same, same] at h

/-! ## What types tell of values -/

theorem Typed.same (ha : a.Typed) (h : a.Same b) : b.Typed := by
  cases b with
  | stream | exception =>
    cases a with
    | stream | exception => exact ha
    | _ => simp [Same, same] at h
  | function g =>
    cases a with
    | function f =>
      obtain rfl : f = g := by simpa [Same, same] using h
      exact ha
    | _ => simp [Same, same] at h
  | _ => trivial

theorem typeOf_eq_of_not_typed (ha : ¬ a.Typed) (h : a.Same b) : a.typeOf = b.typeOf := by
  cases a with
  | stream | exception =>
    cases b with
    | stream | exception => first | rfl | simp [Same, same] at h
    | _ => simp [Same, same] at h
  | function f =>
    cases b with
    | function g =>
      obtain rfl : f = g := by simpa [Same, same] using h
      rfl
    | _ => simp [Same, same] at h
  | _ => exact absurd trivial ha

theorem Typed.isSingle_typeOf (ha : a.Typed) : a.typeOf.isSingle = true := by
  cases a with
  | stream | exception => exact ha.elim
  | function f =>
    have hnone : f.definition? = none := ha
    cases f with
    | text | stream => rfl
    | _ => cases hnone
  | _ => rfl

section
variable (ha : a.Everywhere (Distinct layout)) (hb : b.Everywhere (Distinct layout))
  (hca : a.Clear) (hcb : b.Clear) (h : a.Same b)
include ha hb hca hcb h

/-- The types of equal values are alike. -/
theorem alike_of_same : Ty.Alike a.typeOf b.typeOf := by
  by_cases hta : a.Typed
  · have hka : a.typeOf.isKnown = true := (Transparent.mk hta hca).isKnown_typeOf
    have hkb : b.typeOf.isKnown = true := (Transparent.mk (hta.same h) hcb).isKnown_typeOf
    exact Ty.alike_of_accepts hka hkb (typeOf_accepts_typeOf ha hb hca hcb h)
      (typeOf_accepts_typeOf hb ha hcb hca ((comparable ha).symm b hb h))
  · rw [typeOf_eq_of_not_typed hta h]
    exact fun _ => rfl

/-- Equal values cannot be told apart by their types: the same types accept those of both, a type
test answers the same for both, and the same conversion is chosen for both, wherever one is wanted.
Of two items of a set, or two keys of a map, the first does not equal the second, and instances have
the inputs of their structures, at any depth; and no function of the program, stream or failure is in
a list, a set or a map, but for what instances have bound. -/
theorem same_indistinguishable :
    (∀ t : Ty, t.accepts a.typeOf = t.accepts b.typeOf) ∧
    (∀ (w : World) (es : Evaluations) (current : EvaluationId) (node expression : NodeId)
      (tested : Annotation) (operands operands' : List Value),
      w.tree.construct node = .typeTest expression tested →
      w.seen (World.operand operands 0) = a → w.seen (World.operand operands' 0) = b →
      w.outcome es current node operands = w.outcome es current node operands') ∧
    ∀ (t : Tree) (output : Ty) (node : NodeId),
      (t.conversion? a.typeOf output node).map (·.conversion) =
        (t.conversion? b.typeOf output node).map (·.conversion) := by
  have halike : Ty.Alike a.typeOf b.typeOf := alike_of_same ha hb hca hcb h
  refine ⟨halike, fun w es current node expression tested operands operands' hc hx hy => ?_,
    fun t output node => ?_⟩
  · rw [World.outcome_typeTest hc, World.outcome_typeTest hc, hx, hy, World.tests, World.tests,
      halike]
  · by_cases hta : a.Typed
    · exact Tree.conversion?_alike halike hta.isSingle_typeOf (hta.same h).isSingle_typeOf node
    · rw [typeOf_eq_of_not_typed hta h]

end

/-- A set of two lists and an instance that has bound a function, in two orders. The type of the empty
list leaves a trace in one of the two types only. -/
theorem same_indistinguishable_orders :
    let layout : NodeId → List String := fun _ => []
    let instance_ := instanceOf ⟨⟨0⟩, "S", ⟨1⟩, [], [("f", function (.function ⟨2⟩ .root))]⟩
    let a := set [list [], list [number 1], instance_]
    let b := set [instance_, list [number 1], list []]
    (a.Everywhere (Distinct layout) ∧ b.Everywhere (Distinct layout) ∧ a.Clear ∧ b.Clear ∧
      a.Same b) ∧ a.typeOf ≠ b.typeOf ∧ ∀ t : Ty, t.accepts a.typeOf = t.accepts b.typeOf := by
  intro layout instance_ a b
  have hinstance : instance_.Everywhere (Distinct layout) := everywhere_instanceOf.2
    ⟨rfl, by simp [everywhere_of_held_nil (v := function _) rfl, Distinct]⟩
  have hlist : ∀ items : List Value, (∀ v ∈ items, v.held = [] ∧ Distinct layout v) →
      (list items).Everywhere (Distinct layout) := fun items hitems =>
    everywhere_list.2 ⟨trivial, fun v hv => (everywhere_of_held_nil (hitems v hv).1).2 (hitems v hv).2⟩
  have hempty := hlist [] (by simp)
  have hone := hlist [number 1] (by simp [number, held, Distinct])
  have ha : a.Everywhere (Distinct layout) := everywhere_set.2
    ⟨show List.Pairwise _ _ by decide +kernel, by simp [hempty, hone, hinstance]⟩
  have hb : b.Everywhere (Distinct layout) := everywhere_set.2
    ⟨show List.Pairwise _ _ by decide +kernel, by simp [hempty, hone, hinstance]⟩
  have hnumber : (number 1).Transparent := .mk trivial (List.forall_mem_nil _)
  have htransparent : ∀ v ∈ [list [], list [number 1], instance_], v.Transparent := by
    simp only [List.mem_cons, List.not_mem_nil, or_false, forall_eq_or_imp, forall_eq]
    exact ⟨.mk trivial (List.forall_mem_nil _),
      .mk trivial fun u hu => List.mem_singleton.1 hu ▸ hnumber,
      .mk trivial (List.forall_mem_nil _)⟩
  have hca : a.Clear := htransparent
  have hcb : b.Clear := fun v hv => htransparent v (by simp [b, contents] at hv ⊢; tauto)
  have hsame : a.Same b := show a.same b = true by decide +kernel
  exact ⟨⟨ha, hb, hca, hcb, hsame⟩, by decide +kernel,
    (same_indistinguishable ha hb hca hcb hsame).1⟩

end Value
end ReactiveLang
