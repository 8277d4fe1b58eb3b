import ReactiveLang.Proofs.Types.Sets

/-!
# Laws of sets of types

However a set was made, no member of it is accepted by an earlier one, so adding its members again
changes nothing. That holds with unknown types among them too, although compatibility is then no
order: whether a type stays is only asked of those before it.

* `Built.reduced`: no member of a set is accepted by an earlier one.
* `Reduced.union_self`, `Reduced.intersection_self`, `Reduced.difference_self`: a set with itself.
* `Reduced.mem_intersection`, `Reduced.mem_difference`: a test splits the members of a set.
* `Reduced.ofType_fold`: the set of the members of its type.
-/

namespace ReactiveLang

/-- Only a union has other members than itself. -/
theorem Ty.members_of_ne_union {t : Ty} (h : ∀ a b, t ≠ .union a b) : t.members = [t] := by
  cases t with
  | union a b => exact absurd rfl (h a b)
  | _ => rfl

namespace TypeSet

variable {s other : TypeSet} {types : List Ty} {member : Ty}

/-- The sets that can be made, of whatever types. -/
inductive Built : TypeSet → Prop where
  | ofList (types : List Ty) : Built (ofList types)
  | ofType (t : Ty) : Built (ofType t)
  | union {s other : TypeSet} : Built s → Built other → Built (s.union other)
  | intersection {s other : TypeSet} : Built s → Built other → Built (s.intersection other)
  | difference {s other : TypeSet} : Built s → Built other → Built (s.difference other)

/-- Every operation adds types one by one to the empty set. -/
theorem Built.reduced (h : Built s) : Reduced s.types := by
  cases h with
  | ofList types => exact reduced_ofList types
  | ofType t => exact reduced_ofType t
  | union | intersection | difference => exact reduced_ofList _

theorem contains_of_mem_types (h : member ∈ s.types) : s.contains member = true :=
  contains_iff.2 ⟨member, h, member.accepts_self⟩

theorem foldl_insert_of_contains (h : ∀ t ∈ types, s.contains t = true) :
    types.foldl insert s = s := by
  induction types with
  | nil => rfl
  | cons t rest ih =>
    rw [List.foldl_cons, insert_of_contains (h t List.mem_cons_self)]
    exact ih fun u hu => h u (List.mem_cons_of_mem t hu)

section
variable (h : Reduced s.types)
include h

theorem Reduced.union_self : s.union s = s := by
  have hself : s.types.foldl insert empty = s := h.ofList
  rw [union, TypeSet.ofList, List.foldl_append, hself]
  exact foldl_insert_of_contains fun t ht => contains_of_mem_types ht

theorem Reduced.intersection_self : s.intersection s = s := by
  have hall : s.types.filter s.contains = s.types :=
    List.filter_eq_self.2 fun t ht => contains_of_mem_types ht
  rw [h.intersection, hall]

theorem Reduced.difference_self : s.difference s = empty := by
  have hnone : (s.types.filter fun t => !s.contains t) = [] :=
    List.filter_eq_nil_iff.2 fun t ht => by simp [contains_of_mem_types ht]
  rw [h.difference, hnone, empty]

theorem Reduced.mem_intersection : member ∈ (s.intersection other).types ↔
    member ∈ s.types ∧ other.contains member = true := by
  rw [h.intersection, List.mem_filter]

theorem Reduced.mem_difference : member ∈ (s.difference other).types ↔
    member ∈ s.types ∧ other.contains member = false := by
  rw [h.difference, List.mem_filter, Bool.not_eq_true']

end

theorem members_foldTypes (hne : types ≠ []) (h : ∀ t ∈ types, ∀ a b, t ≠ .union a b) :
    (foldTypes types).members = types := by
  induction types with
  | nil => exact absurd rfl hne
  | cons t rest ih =>
    have ht : t.members = [t] := Ty.members_of_ne_union (h t List.mem_cons_self)
    cases rest with
    | nil => exact ht
    | cons next rest =>
      rw [foldTypes, Ty.members, ht, ih (List.cons_ne_nil _ _) fun u hu =>
        h u (List.mem_cons_of_mem t hu)]
      · rfl
      · exact List.cons_ne_nil _ _

theorem Reduced.ofType_fold (h : Reduced s.types) (hne : s.types ≠ [])
    (hunion : ∀ t ∈ s.types, ∀ a b, t ≠ .union a b) : ofType s.fold = s := by
  rw [ofType, fold, members_foldTypes hne hunion, h.ofList]

/-- The laws of sets, however they were made: no member is accepted by an earlier one; a set joined
or intersected with itself stays what it is, and without itself it is empty; what a set has in
common with another, and what it has besides, are subsequences of its members, and each member is in
one of the two, as the other set contains it or not; and a set of members that are no unions is
the set of its type. -/
theorem built_laws (hs : Built s) (other : TypeSet) :
    (s.types.Pairwise fun earlier member => earlier.accepts member = false) ∧
      s.union s = s ∧ s.intersection s = s ∧ s.difference s = empty ∧
      (s.intersection other).types.Sublist s.types ∧ (s.difference other).types.Sublist s.types ∧
      (∀ member ∈ s.types,
        (member ∈ (s.intersection other).types ↔ member ∉ (s.difference other).types) ∧
          (member ∈ (s.intersection other).types ↔ other.contains member = true)) ∧
      (s.types ≠ [] → (∀ member ∈ s.types, ∀ a b, member ≠ .union a b) → ofType s.fold = s) := by
  have h : Reduced s.types := hs.reduced
  refine ⟨h, h.union_self, h.intersection_self, h.difference_self, ?_, ?_, fun member hm => ?_,
    h.ofType_fold⟩
  · rw [h.intersection]
    exact List.filter_sublist
  · rw [h.difference]
    exact List.filter_sublist
  · rw [h.mem_intersection, h.mem_difference]
    simp [hm]

/-- A list of what is unknown accepts every list, so of two lists one stays; another set contains it
for its list of booleans. -/
theorem built_laws_unknown :
    let s := ofList [.list (.unknown .cycle), .list .text, .nothing]
    let other := ofList [.list .boolean]
    (Built s ∧ s.types ≠ [] ∧ ∀ member ∈ s.types, ∀ a b, member ≠ .union a b) ∧
      s.types = [.list (.unknown .cycle), .nothing] ∧ s.union s = s ∧
      .list (.unknown .cycle) ∈ (s.intersection other).types ∧
      .list (.unknown .cycle) ∉ (s.difference other).types ∧
      ofType s.fold = s := by
  intro s other
  have hs : s.types = [.list (.unknown .cycle), .nothing] := by decide +kernel
  have hne : s.types ≠ [] := by rw [hs]; exact List.cons_ne_nil _ _
  have hunion : ∀ member ∈ s.types, ∀ a b, member ≠ .union a b := by
    rw [hs]
    simp
  have hcontains : other.contains (.list (.unknown .cycle)) = true := by decide +kernel
  obtain ⟨-, hself, -, -, -, -, hsplit, hfold⟩ := built_laws (.ofList _) other
  obtain ⟨hone, htest⟩ := hsplit (.list (.unknown .cycle)) (by rw [hs]; exact List.mem_cons_self)
  have hin := htest.2 hcontains
  exact ⟨⟨.ofList _, hne, hunion⟩, hs, hself, hin, hone.1 hin, hfold hne hunion⟩

end TypeSet
end ReactiveLang
