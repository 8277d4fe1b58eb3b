import ReactiveLang.Proofs.Types.Acceptance
import ReactiveLang.Types.TypeSet

/-!
# What type tests leave

A set of possible types is narrowed by a test that a value has passed or failed, and still contains
the type of that value, if everything in it is plain: then a member that accepts the value's type is
accepted by the tested type when the value is (`contains_intersection`), and is not when the value
is not (`contains_difference`).
-/

namespace ReactiveLang

namespace Ty

/-- A boolean, a text, nothing or an instance of a structure, or one of several such. -/
def isPlain : Ty → Bool
  | boolean | text | nothing | instanceOf _ _ => true
  | union a b => isPlain a && isPlain b
  | _ => false

/-- One member of a plain type. -/
structure IsAtom (t : Ty) : Prop where
  plain : t.isPlain = true
  single : t.isSingle = true

theorem isAtom_of_mem_members : ∀ {t member : Ty}, t.isPlain = true → member ∈ t.members →
    member.IsAtom
  | union a b, member, h, hm => by
    obtain ⟨ha, hb⟩ := Bool.and_eq_true_iff.1 h
    rcases List.mem_append.1 hm with hm | hm
    · exact isAtom_of_mem_members ha hm
    · exact isAtom_of_mem_members hb hm
  | boolean, _, h, hm | text, _, h, hm | nothing, _, h, hm | instanceOf _ _, _, h, hm => by
    rw [List.mem_singleton.1 hm]
    exact ⟨h, rfl⟩

/-- A type accepts a single type if one of its members does. -/
theorem accepts_iff_members {given : Ty} (hg : given.isSingle = true) : ∀ t : Ty,
    t.accepts given = true ↔ ∃ member ∈ t.members, member.accepts given = true
  | union a b => by
    rw [union_accepts hg, Bool.or_eq_true, accepts_iff_members hg a, accepts_iff_members hg b]
    simp only [members, List.mem_append, or_and_right, exists_or]
  | boolean | text | nothing | never | unknown _ | measurement _ | list _ | set _ | stream _
  | map _ _ | instanceOf _ _ | function _ _ => by simp [members]

variable {a b given : Ty}

theorem IsAtom.isKnown (h : a.IsAtom) : a.isKnown = true := by
  obtain ⟨hp, hs⟩ := h
  cases a <;> first | rfl | cases hp | cases hs

/-- Two atoms that accept one type accept each other. -/
theorem IsAtom.accepts_of_common (ha : a.IsAtom) (hb : b.IsAtom) (hg : given.isSingle = true)
    (hag : a.accepts given = true) (hbg : b.accepts given = true) : b.accepts a = true := by
  have hfa := fits_of_accepts ha.single hg hag
  have hfb := fits_of_accepts hb.single hg hbg
  have hplain := ha.plain
  cases hfa with
  | boolean | text | nothing => cases hfb; exact accepts_self _
  | instanceOf => cases hfb; exact (Fits.instanceOf _ _ _).accepts
  | _ => cases hplain

end Ty

namespace TypeSet

variable {s tested : TypeSet} {types : List Ty} {given : Ty}

/-- The set has atoms only. -/
def Plain (s : TypeSet) : Prop := ∀ member ∈ s.types, member.IsAtom

theorem contains_iff : s.contains given = true ↔
    ∃ member ∈ s.types, member.accepts given = true := by
  simp [contains]

theorem mem_insert {t member : Ty} (h : member ∈ (s.insert t).types) :
    member ∈ s.types ∨ member = t := by
  unfold insert at h
  split at h
  · exact .inl h
  · simpa using h

theorem mem_foldl_insert {member : Ty} (h : member ∈ (types.foldl insert s).types) :
    member ∈ s.types ∨ member ∈ types := by
  induction types generalizing s with
  | nil => exact .inl h
  | cons t rest ih =>
    rcases ih h with h | h
    · exact (mem_insert h).imp id fun h => by simp [h]
    · exact .inr (List.mem_cons_of_mem _ h)

theorem plain_ofList (h : ∀ t ∈ types, t.IsAtom) : (ofList types).Plain := fun member hm =>
  (mem_foldl_insert hm).elim (fun h => absurd h List.not_mem_nil) (h member)

/-- A type that is left out of a set is accepted by a member that stays. -/
theorem contains_insert {t : Ty} (hk : t.isKnown = true)
    (h : s.contains given = true ∨ t.accepts given = true) :
    (s.insert t).contains given = true := by
  unfold insert
  split
  · rename_i hin
    rcases h with h | h
    · exact h
    · obtain ⟨member, hm, ha⟩ := contains_iff.1 hin
      exact contains_iff.2 ⟨member, hm, Ty.accepts_trans hk ha h⟩
  · rw [contains_iff] at h ⊢
    rcases h with ⟨member, hm, ha⟩ | h
    · exact ⟨member, List.mem_append_left _ hm, ha⟩
    · exact ⟨t, List.mem_append_right _ (List.mem_singleton_self t), h⟩

theorem contains_foldl_insert (hk : ∀ t ∈ types, t.isKnown = true)
    (h : s.contains given = true ∨ ∃ t ∈ types, t.accepts given = true) :
    (types.foldl insert s).contains given = true := by
  induction types generalizing s with
  | nil => exact h.resolve_right fun ⟨_, hm, _⟩ => absurd hm List.not_mem_nil
  | cons t rest ih =>
    have hinsert : s.contains given = true ∨ t.accepts given = true →
        (s.insert t).contains given = true := contains_insert (hk t (by simp))
    refine ih (fun u hu => hk u (List.mem_cons_of_mem _ hu)) ?_
    rcases h with h | ⟨u, hu, ha⟩
    · exact .inl (hinsert (.inl h))
    · rcases List.mem_cons.1 hu with rfl | hu
      · exact .inl (hinsert (.inr ha))
      · exact .inr ⟨u, hu, ha⟩

theorem contains_ofList (hk : ∀ t ∈ types, t.isKnown = true)
    (h : ∃ t ∈ types, t.accepts given = true) : (ofList types).contains given = true :=
  contains_foldl_insert hk (.inr h)

/-! ## From types to sets and back -/

theorem plain_ofType {t : Ty} (h : t.isPlain = true) : (ofType t).Plain :=
  plain_ofList fun _ hm => Ty.isAtom_of_mem_members h hm

theorem foldTypes_accepts (h : ∃ t ∈ types, t.accepts given = true) :
    (foldTypes types).accepts given = true := by
  induction types with
  | nil => obtain ⟨_, hm, _⟩ := h; cases hm
  | cons t rest ih =>
    obtain ⟨u, hu, ha⟩ := h
    cases rest with
    | nil => rwa [← List.mem_singleton.1 hu]
    | cons next rest =>
      rw [foldTypes]
      · rcases List.mem_cons.1 hu with rfl | hu
        · exact Ty.union_accepts_left ha _
        · exact Ty.union_accepts_right (ih ⟨u, hu, ha⟩) _
      · exact List.cons_ne_nil _ _

theorem fold_accepts (h : s.contains given = true) : s.fold.accepts given = true :=
  foldTypes_accepts (contains_iff.1 h)

section
variable (hg : given.isSingle = true)
include hg

theorem contains_ofType {t : Ty} (h : t.isPlain = true) (ha : t.accepts given = true) :
    (ofType t).contains given = true :=
  contains_ofList (fun _ hm => (Ty.isAtom_of_mem_members h hm).isKnown)
    ((Ty.accepts_iff_members hg t).1 ha)

/-- What some member accepts, the type does. -/
theorem accepts_of_contains_ofType {t : Ty} (h : (ofType t).contains given = true) :
    t.accepts given = true := by
  obtain ⟨member, hm, ha⟩ := contains_iff.1 h
  refine (Ty.accepts_iff_members hg t).2 ⟨member, ?_, ha⟩
  exact (mem_foldl_insert hm).resolve_left List.not_mem_nil

end

/-! ## Tests -/

section
variable (hs : s.Plain) {t : Ty} (ht : t.isPlain = true) (hg : given.isSingle = true)
  (h : s.contains given = true)
include hs ht hg h

/-- A test that the value has passed leaves a member for its type. -/
theorem contains_intersection (ha : t.accepts given = true) :
    (s.intersection (ofType t)).Plain ∧ (s.intersection (ofType t)).contains given = true := by
  have hatoms : ∀ u ∈ s.types.filter (ofType t).contains, u.IsAtom := fun u hu =>
    hs u (List.mem_filter.1 hu).1
  refine ⟨plain_ofList hatoms, contains_ofList (fun u hu => (hatoms u hu).isKnown) ?_⟩
  obtain ⟨member, hm, hgiven⟩ := contains_iff.1 h
  obtain ⟨other, ho, hother⟩ := contains_iff.1 (contains_ofType hg ht ha)
  have haccepts := (hs member hm).accepts_of_common (plain_ofType ht other ho) hg hgiven hother
  exact ⟨member, List.mem_filter.2 ⟨hm, contains_iff.2 ⟨other, ho, haccepts⟩⟩, hgiven⟩

omit ht in
/-- A test that the value has failed leaves a member for its type. -/
theorem contains_difference (ha : t.accepts given = false) :
    (s.difference (ofType t)).Plain ∧ (s.difference (ofType t)).contains given = true := by
  have hatoms : ∀ u ∈ s.types.filter (fun u => !(ofType t).contains u), u.IsAtom := fun u hu =>
    hs u (List.mem_filter.1 hu).1
  refine ⟨plain_ofList hatoms, contains_ofList (fun u hu => (hatoms u hu).isKnown) ?_⟩
  obtain ⟨member, hm, hgiven⟩ := contains_iff.1 h
  refine ⟨member, List.mem_filter.2 ⟨hm, ?_⟩, hgiven⟩
  rw [Bool.not_eq_true', Bool.eq_false_iff]
  intro hin
  obtain ⟨other, ho, hother⟩ := contains_iff.1 hin
  have hcontains : (ofType t).contains given = true :=
    contains_iff.2 ⟨other, ho, Ty.accepts_trans (hs member hm).isKnown hother hgiven⟩
  rw [accepts_of_contains_ofType hg hcontains] at ha
  cases ha

end
end TypeSet
end ReactiveLang
