import ReactiveLang.Proofs.Types.Narrowing

/-!
# What stays in a set of types

A set leaves out each type that an earlier member accepts, so no member is accepted by an earlier
one. A list of types with that property is a set as it stands, and so is all that a test leaves of
it.

* `ofList_types`: the members are the types that came, without those that an earlier member accepts.
* `contains_of_mem`: each type that came is accepted by a member that has stayed.
* `ofList_append_cons`: a type that an earlier one accepts makes no difference.
* `Reduced.ofList`, `Reduced.intersection`, `Reduced.difference`: adding the members of a set one by
  one again drops none of them.
-/

namespace ReactiveLang

namespace Ty

variable {member given : Ty}

/-- A type accepts what a member accepts. -/
theorem accepts_of_member (ha : member.accepts given = true) : ∀ {t : Ty}, member ∈ t.members →
    t.accepts given = true
  | union a b, hm => by
    rcases List.mem_append.1 hm with hm | hm
    · exact union_accepts_left (accepts_of_member ha hm) b
    · exact union_accepts_right (accepts_of_member ha hm) a
  | boolean, hm | text, hm | nothing, hm | never, hm | unknown _, hm | measurement _, hm
  | list _, hm | set _, hm | stream _, hm | map _ _, hm | instanceOf _ _, hm
  | function _ _, hm => by
    rwa [← List.mem_singleton.1 hm]

theorem isKnown_of_mem_members : ∀ {t : Ty}, t.isKnown = true → member ∈ t.members →
    member.isKnown = true
  | union a b, h, hm => by
    obtain ⟨ha, hb⟩ := Bool.and_eq_true_iff.1 h
    rcases List.mem_append.1 hm with hm | hm
    · exact isKnown_of_mem_members ha hm
    · exact isKnown_of_mem_members hb hm
  | boolean, h, hm | text, h, hm | nothing, h, hm | never, h, hm | unknown _, h, hm
  | measurement _, h, hm | list _, h, hm | set _, h, hm | stream _, h, hm | map _ _, h, hm
  | instanceOf _ _, h, hm | function _ _, h, hm => by
    rwa [List.mem_singleton.1 hm]

theorem members_ne_nil : ∀ t : Ty, t.members ≠ []
  | union a _, h => members_ne_nil a (List.append_eq_nil_iff.1 h).1
  | boolean, h | text, h | nothing, h | never, h | unknown _, h | measurement _, h | list _, h
  | set _, h | stream _, h | map _ _, h | instanceOf _ _, h | function _ _, h => nomatch h

end Ty

namespace TypeSet

variable {s other : TypeSet} {types : List Ty} {t given : Ty}

theorem insert_of_contains (h : s.contains t = true) : s.insert t = s := if_pos h

theorem insert_of_not_contains (h : s.contains t = false) : s.insert t = ⟨s.types ++ [t]⟩ :=
  if_neg (by simp [h])

theorem contains_insert_self (s : TypeSet) (t : Ty) : (s.insert t).contains t = true := by
  unfold insert
  split
  · assumption
  · exact contains_iff.2 ⟨t, List.mem_append_right _ (List.mem_singleton_self t), t.accepts_self⟩

theorem contains_insert_of_contains (h : s.contains given = true) (t : Ty) :
    (s.insert t).contains given = true := by
  unfold insert
  split
  · exact h
  · obtain ⟨member, hm, ha⟩ := contains_iff.1 h
    exact contains_iff.2 ⟨member, List.mem_append_left _ hm, ha⟩

theorem contains_foldl_of_contains (h : s.contains given = true) (types : List Ty) :
    (types.foldl insert s).contains given = true := by
  induction types generalizing s with
  | nil => exact h
  | cons t rest ih => exact ih (contains_insert_of_contains h t)

/-- A type that came is in the set, by itself or by a member that accepts it. -/
theorem contains_of_mem (h : t ∈ types) : (ofList types).contains t = true := by
  obtain ⟨before, after, rfl⟩ := List.append_of_mem h
  rw [ofList, List.foldl_append, List.foldl_cons]
  exact contains_foldl_of_contains (contains_insert_self _ t) after

theorem mem_of_mem_ofList {member : Ty} (h : member ∈ (ofList types).types) : member ∈ types :=
  (mem_foldl_insert h).resolve_left List.not_mem_nil

/-- A type that an earlier one accepts makes no difference. -/
theorem ofList_append_cons {before : List Ty} (hk : ∀ u ∈ before, u.isKnown = true)
    (h : ∃ u ∈ before, u.accepts t = true) (after : List Ty) :
    ofList (before ++ t :: after) = ofList (before ++ after) := by
  have hin : (ofList before).contains t = true := contains_ofList hk h
  rw [ofList, ofList, List.foldl_append, List.foldl_append, List.foldl_cons]
  exact congrArg (after.foldl insert) (insert_of_contains hin)

theorem foldl_insert_types (types members : List Ty) :
    (types.foldl insert ⟨members.reverse⟩).types =
      List.eraseDupsBy.loop (fun t u => u.accepts t) types members := by
  induction types generalizing members with
  | nil => rfl
  | cons t rest ih =>
    have hany : (⟨members.reverse⟩ : TypeSet).contains t = members.any fun u => u.accepts t :=
      List.any_reverse
    rw [List.foldl_cons, List.eraseDupsBy.loop]
    cases hin : members.any fun u => u.accepts t with
    | true => rw [insert_of_contains (hany.trans hin), ih]
    | false =>
      rw [insert_of_not_contains (hany.trans hin), ← ih (t :: members), List.reverse_cons]

/-- The members are the types that came, each unless an earlier member accepts it. -/
theorem ofList_types (types : List Ty) :
    (ofList types).types = types.eraseDupsBy fun t u => u.accepts t :=
  foldl_insert_types types []

/-! ## The members of one type -/

/-- The members of a type without an unknown part accept what the type accepts. -/
theorem contains_ofType_of_isKnown {t : Ty} (hk : t.isKnown = true)
    (hg : given.isSingle = true ∨ ∃ reason, given = .unknown reason)
    (ha : t.accepts given = true) : (ofType t).contains given = true := by
  rcases hg with hg | ⟨reason, rfl⟩
  · exact contains_ofList (fun u hu => Ty.isKnown_of_mem_members hk hu)
      ((Ty.accepts_iff_members hg t).1 ha)
  · obtain ⟨u, hu⟩ := List.exists_mem_of_ne_nil _ t.members_ne_nil
    obtain ⟨member, hm, -⟩ := contains_iff.1 (contains_of_mem hu)
    exact contains_iff.2 ⟨member, hm, Ty.accepts_unknown _ _⟩

/-- Members of a type that does not accept a type leave alone what accepts it. -/
theorem not_contains_ofType {tested member : Ty} (hk : member.isKnown = true)
    (ha : member.accepts given = true) (hno : tested.accepts given = false) :
    (ofType tested).contains member = false := by
  rw [← Bool.not_eq_true]
  intro hin
  obtain ⟨other, ho, hother⟩ := contains_iff.1 hin
  have htested : tested.accepts given = true :=
    Ty.accepts_of_member (Ty.accepts_trans hk hother ha) (mem_of_mem_ofList ho)
  rw [hno] at htested
  cases htested

/-! ## Sets whose members can be added again -/

/-- No member is accepted by an earlier one. -/
def Reduced (types : List Ty) : Prop := types.Pairwise fun a b => a.accepts b = false

theorem Reduced.filter (h : Reduced types) (keep : Ty → Bool) : Reduced (types.filter keep) :=
  List.Pairwise.filter keep h

theorem reduced_insert (h : Reduced s.types) (t : Ty) : Reduced (s.insert t).types := by
  cases hin : s.contains t with
  | true => rwa [insert_of_contains hin]
  | false =>
    rw [insert_of_not_contains hin]
    refine List.pairwise_append.2 ⟨h, List.pairwise_singleton _ _, fun member hm u hu => ?_⟩
    rw [List.mem_singleton.1 hu, ← Bool.not_eq_true]
    exact fun ha => Bool.eq_false_iff.1 hin (contains_iff.2 ⟨member, hm, ha⟩)

theorem reduced_foldl_insert (h : Reduced s.types) (types : List Ty) :
    Reduced (types.foldl insert s).types := by
  induction types generalizing s with
  | nil => exact h
  | cons t rest ih => exact ih (reduced_insert h t)

theorem reduced_ofList (types : List Ty) : Reduced (ofList types).types :=
  reduced_foldl_insert List.Pairwise.nil types

theorem reduced_ofType (t : Ty) : Reduced (ofType t).types := reduced_ofList t.members

theorem Reduced.foldl_insert (h : Reduced (s.types ++ types)) :
    types.foldl insert s = ⟨s.types ++ types⟩ := by
  induction types generalizing s with
  | nil => simp
  | cons t rest ih =>
    have hnot : s.contains t = false := by
      rw [← Bool.not_eq_true]
      intro hin
      obtain ⟨member, hm, ha⟩ := contains_iff.1 hin
      have := (List.pairwise_append.1 h).2.2 member hm t List.mem_cons_self
      rw [ha] at this
      cases this
    rw [List.append_cons] at h
    rw [List.foldl_cons, insert_of_not_contains hnot, ih h, List.append_assoc]
    rfl

theorem Reduced.ofList (h : Reduced types) : ofList types = ⟨types⟩ := Reduced.foldl_insert h

theorem Reduced.intersection (h : Reduced s.types) (other : TypeSet) :
    s.intersection other = ⟨s.types.filter other.contains⟩ := (h.filter _).ofList

theorem Reduced.difference (h : Reduced s.types) (other : TypeSet) :
    s.difference other = ⟨s.types.filter fun t => !other.contains t⟩ := (h.filter _).ofList

end TypeSet
end ReactiveLang
