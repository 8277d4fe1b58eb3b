import ReactiveLang.Proofs.Types.Sets

/-!
# One type for several

A set of types leaves out what an earlier member accepts, and keeps what a later one does. So the
union that it folds to depends on the order in which the types came; but whatever the order, it is
their least upper bound.

* `TypeSet.accepts_fold`: the fold is accepted by the types that accept every member.
* `TypeSet.fold_ofList_accepts`: it accepts every type that came.
* `Ty.union_least`: the union of several types is their least upper bound.
-/

namespace ReactiveLang

namespace TypeSet

variable {s : TypeSet} {types : List Ty} {t : Ty}

theorem accepts_foldTypes : ∀ types : List Ty,
    t.accepts (foldTypes types) = true ↔ ∀ member ∈ types, t.accepts member = true
  | [] => by simp [foldTypes]
  | [member] => by simp [foldTypes]
  | member :: next :: rest => by
    have hfold : foldTypes (member :: next :: rest) = .union member (foldTypes (next :: rest)) := rfl
    rw [hfold, Ty.accepts_union, Bool.and_eq_true, accepts_foldTypes (next :: rest),
      List.forall_mem_cons (a := member)]

theorem accepts_fold : t.accepts s.fold = true ↔ ∀ member ∈ s.types, t.accepts member = true :=
  accepts_foldTypes s.types

theorem isKnown_foldTypes : ∀ {types : List Ty}, (∀ member ∈ types, member.isKnown = true) →
    (foldTypes types).isKnown = true
  | [], _ => rfl
  | [member], h => h member (List.mem_singleton_self _)
  | member :: next :: rest, h => by
    obtain ⟨hm, hrest⟩ := List.forall_mem_cons.1 h
    have hfold : foldTypes (member :: next :: rest) = .union member (foldTypes (next :: rest)) := rfl
    rw [hfold, Ty.isKnown, hm, isKnown_foldTypes hrest]
    rfl

/-- The fold accepts every type that came. -/
theorem fold_ofList_accepts (h : t ∈ types) : (ofList types).fold.accepts t = true :=
  fold_accepts (contains_of_mem h)

end TypeSet

namespace Ty

open TypeSet

variable {types : List Ty} {t u : Ty}

theorem unionOf?_eq (hne : types ≠ []) : unionOf? types = some (ofList types).fold := by
  obtain ⟨t, ht⟩ := List.exists_mem_of_ne_nil types hne
  obtain ⟨member, hm, -⟩ := contains_iff.1 (contains_of_mem ht)
  have hempty : (ofList types).isEmpty = false := List.isEmpty_eq_false_iff_exists_mem.2 ⟨member, hm⟩
  unfold unionOf?
  dsimp only
  rw [hempty]
  rfl

/-- The union of two types is the first alone if it accepts the second. -/
theorem unionOf?_pair (t u : Ty) :
    unionOf? [t, u] = some (if t.accepts u then t else .union t u) := by
  have hset : ofList [t, u] = (⟨[t]⟩ : TypeSet).insert u := rfl
  have hin : (⟨[t]⟩ : TypeSet).contains u = t.accepts u := by simp [contains]
  rw [unionOf?_eq (List.cons_ne_nil _ _), hset]
  cases ha : t.accepts u with
  | true => rw [insert_of_contains (hin.trans ha)]; rfl
  | false => rw [insert_of_not_contains (hin.trans ha)]; rfl

/-- What accepts the union accepts each of the types, through the union. -/
theorem accepts_fold_ofList (hk : ∀ t ∈ types, t.isKnown = true) (upper : Ty) :
    upper.accepts (ofList types).fold = true ↔ ∀ t ∈ types, upper.accepts t = true := by
  have hfold : (ofList types).fold.isKnown = true :=
    isKnown_foldTypes fun member hm => hk member (mem_of_mem_ofList hm)
  constructor
  · exact fun h t ht => accepts_trans hfold h (fold_ofList_accepts ht)
  · exact fun h => accepts_fold.2 fun member hm => h member (mem_of_mem_ofList hm)

/-- The union of some types without an unknown part is their least upper bound: it accepts each of
them, and is accepted by just those types that accept all of them, and the same types in another
order or number have a union that it accepts and that accepts it. Which of them represent it is a
matter of the order: each stays unless one before it accepts it, so that dropping one of those from
the list changes nothing, while two types of which just one accepts the other are not the same union
in both orders. -/
theorem union_least (hne : types ≠ []) (hk : ∀ t ∈ types, t.isKnown = true) :
    ∃ union, unionOf? types = some union ∧
      (∀ t ∈ types, union.accepts t = true) ∧
      (∀ upper : Ty, upper.accepts union = true ↔ ∀ t ∈ types, upper.accepts t = true) ∧
      (∀ others, (∀ t, t ∈ others ↔ t ∈ types) → ∃ union', unionOf? others = some union' ∧
        union.accepts union' = true ∧ union'.accepts union = true) ∧
      union = foldTypes (types.eraseDupsBy fun t u => u.accepts t) ∧
      (∀ before t after, types = before ++ t :: after → (∃ u ∈ before, u.accepts t = true) →
        unionOf? (before ++ after) = some union) ∧
      ∀ t ∈ types, ∀ u ∈ types, t.accepts u = true → u.accepts t = false →
        unionOf? [t, u] = some t ∧ unionOf? [u, t] = some (.union u t) := by
  refine ⟨_, unionOf?_eq hne, fun t => fold_ofList_accepts, accepts_fold_ofList hk,
    fun others hsame => ?_, congrArg foldTypes (ofList_types types), fun before t after heq hin => ?_,
    fun t _ u _ htu hut => ⟨?_, ?_⟩⟩
  · have hk' : ∀ t ∈ others, t.isKnown = true := fun t ht => hk t ((hsame t).1 ht)
    obtain ⟨t, ht⟩ := List.exists_mem_of_ne_nil types hne
    refine ⟨_, unionOf?_eq (List.ne_nil_of_mem ((hsame t).2 ht)), ?_, ?_⟩
    · exact (accepts_fold_ofList hk' _).2 fun u hu => fold_ofList_accepts ((hsame u).1 hu)
    · exact (accepts_fold_ofList hk _).2 fun u hu => fold_ofList_accepts ((hsame u).2 hu)
  · subst heq
    have hbefore : ∀ u ∈ before, u.isKnown = true := fun u hu => hk u (List.mem_append_left _ hu)
    have hrest : before ++ after ≠ [] := by
      obtain ⟨first, hfirst, -⟩ := id hin
      exact List.ne_nil_of_mem (List.mem_append_left _ hfirst)
    rw [unionOf?_eq hrest, ofList_append_cons hbefore hin after]
  · rw [unionOf?_pair, htu, if_pos rfl]
  · rw [unionOf?_pair, hut, if_neg Bool.false_ne_true]

/-- A number of any unit accepts the numbers without one. Both are left if the latter come first, and
the two unions accept each other. -/
theorem union_least_numbers :
    let generic := measurement none
    unionOf? [generic, number] = some generic ∧
      unionOf? [number, generic] = some (union number generic) ∧
      generic.accepts (union number generic) = true ∧
      (union number generic).accepts generic = true := by
  intro generic
  have hne : [generic, number] ≠ [] := List.cons_ne_nil _ _
  have hknown : ∀ t ∈ [generic, number], t.isKnown = true := by simp [generic, number, isKnown]
  obtain ⟨least, hleast, -, -, hsame, -, -, hpair⟩ := union_least hne hknown
  obtain ⟨hfirst, hsecond⟩ := hpair generic (by simp) number (by simp)
    (by simp [generic, number, accepts]) (by simp [generic, number, accepts])
  obtain ⟨least', hleast', hab, hba⟩ := hsame [number, generic] fun t => by simp [or_comm]
  obtain rfl : generic = least := Option.some.inj (hfirst.symm.trans hleast)
  obtain rfl : union number generic = least' := Option.some.inj (hsecond.symm.trans hleast')
  exact ⟨hfirst, hsecond, hab, hba⟩

end Ty
end ReactiveLang
