/-!
# Sorted entries

Units of measure, bindings and the values that are kept between passes are lists of pairs in the
order of their keys. `insert` keeps a sorted list sorted and replaces an entry of the same key, so
a list built by it holds each key once.

Main statements: `lookup_insert_self` and `lookup_insert_of_ne` say what `insert` does to
`List.lookup`; `sorted_insert` and `Sorted.mem_iff`, that a list built by `insert` is sorted and
holds just what is found in it.
-/

namespace ReactiveLang.Keyed

variable {κ α : Type} [BEq κ] [LT κ] [DecidableLT κ]

/-- Puts `value` under `key`, before the first greater key. -/
def insert (key : κ) (value : α) : List (κ × α) → List (κ × α)
  | [] => [(key, value)]
  | (k, v) :: rest =>
    if key == k then (key, value) :: rest
    else if key < k then (key, value) :: (k, v) :: rest
    else (k, v) :: insert key value rest

/-- The entries of a list of pairs; of two pairs with one key the later counts. -/
def ofList (pairs : List (κ × α)) : List (κ × α) :=
  pairs.foldl (fun entries p => insert p.1 p.2 entries) []

/-- The keys ascend strictly. -/
def Sorted (entries : List (κ × α)) : Prop := entries.Pairwise fun a b => a.1 < b.1

/-- An entry is new or was there before. -/
theorem mem_insert {key : κ} {value : α} {entries : List (κ × α)} {p : κ × α}
    (h : p ∈ insert key value entries) : p = (key, value) ∨ p ∈ entries := by
  induction entries with
  | nil => exact .inl (by simpa [insert] using h)
  | cons e rest ih =>
    obtain ⟨k, v⟩ := e
    unfold insert at h
    split at h
    · rcases List.mem_cons.1 h with rfl | h
      · exact .inl rfl
      · exact .inr (by simp [h])
    · split at h
      · rcases List.mem_cons.1 h with rfl | h
        · exact .inl rfl
        · exact .inr h
      · rcases List.mem_cons.1 h with rfl | h
        · exact .inr (by simp)
        · rcases ih h with h | h
          · exact .inl h
          · exact .inr (by simp [h])

variable [LawfulBEq κ]

omit [LT κ] [DecidableLT κ] in
/-- What is found under a key stands there. -/
theorem mem_of_lookup {key : κ} {value : α} {entries : List (κ × α)}
    (h : entries.lookup key = some value) : (key, value) ∈ entries := by
  obtain ⟨before, after, rfl, -⟩ := List.lookup_eq_some_iff.1 h
  simp

@[simp] theorem lookup_insert_self (key : κ) (value : α) (entries : List (κ × α)) :
    (insert key value entries).lookup key = some value := by
  induction entries with
  | nil => simp [insert]
  | cons e rest ih =>
    obtain ⟨k, v⟩ := e
    unfold insert
    split
    · simp
    · rename_i hne
      split
      · simp
      · simp [List.lookup_cons, hne, ih]

theorem lookup_insert_of_ne {key other : κ} (h : other ≠ key) (value : α)
    (entries : List (κ × α)) :
    (insert key value entries).lookup other = entries.lookup other := by
  have hb : (other == key) = false := beq_false_of_ne h
  induction entries with
  | nil => simp [insert, List.lookup_cons, hb]
  | cons e rest ih =>
    obtain ⟨k, v⟩ := e
    unfold insert
    split
    · rename_i heq
      have hk := eq_of_beq heq
      subst hk
      simp [List.lookup_cons, hb]
    · split
      · simp [List.lookup_cons, hb]
      · simp only [List.lookup_cons]
        split <;> simp_all

section
variable (trans : ∀ a b c : κ, a < b → b < c → a < c) (total : ∀ a b : κ, a = b ∨ a < b ∨ b < a)
include trans total

theorem sorted_insert (key : κ) (value : α) {entries : List (κ × α)} (h : Sorted entries) :
    Sorted (insert key value entries) := by
  induction entries with
  | nil => exact List.pairwise_singleton _ _
  | cons e rest ih =>
    obtain ⟨k, v⟩ := e
    obtain ⟨hk, hrest⟩ := List.pairwise_cons.1 h
    unfold insert
    split
    · rename_i heq
      have hkey := eq_of_beq heq
      subst hkey
      exact List.pairwise_cons.2 ⟨hk, hrest⟩
    · rename_i hne
      split
      · rename_i hlt
        exact List.pairwise_cons.2
          ⟨List.forall_mem_cons.2 ⟨hlt, fun p hp => trans _ _ _ hlt (hk p hp)⟩, h⟩
      · rename_i hge
        have hlt : k < key :=
          ((total key k).resolve_left fun he => hne (by simp [he])).resolve_left hge
        refine List.pairwise_cons.2 ⟨fun p hp => ?_, ih hrest⟩
        rcases mem_insert hp with rfl | hp
        · exact hlt
        · exact hk p hp

end

omit [DecidableLT κ] in
/-- A sorted list holds just what is found in it, as it holds no key twice. -/
theorem Sorted.mem_iff (irrefl : ∀ a : κ, ¬ a < a) {key : κ} {value : α}
    {entries : List (κ × α)} (h : Sorted entries) :
    (key, value) ∈ entries ↔ entries.lookup key = some value := by
  refine ⟨fun hm => ?_, mem_of_lookup⟩
  induction entries with
  | nil => cases hm
  | cons e rest ih =>
    obtain ⟨hk, hrest⟩ := List.pairwise_cons.1 h
    rcases List.mem_cons.1 hm with rfl | hm
    · exact List.lookup_cons_self
    · have hlt : e.1 < key := hk (key, value) hm
      have hne : (key == e.1) = false := beq_false_of_ne fun he => irrefl key (by rwa [← he] at hlt)
      rw [List.lookup_cons, hne]
      exact ih hrest hm

end ReactiveLang.Keyed
