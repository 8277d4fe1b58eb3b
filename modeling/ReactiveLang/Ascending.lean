/-!
# Ascending lists

Finite sets of nodes and streams as lists in ascending order, each member once.

* `mem_insert`, `mem_union`, `mem_ofList`: the members.
* `pairwise_union`, `pairwise_ofList`: the order, so that no member is there twice.
-/

namespace ReactiveLang.Ascending

variable {κ : Type} [BEq κ] [LT κ] [DecidableLT κ]

/-- Adds a member in its place. -/
def insert (x : κ) : List κ → List κ
  | [] => [x]
  | y :: rest => if x == y then y :: rest else if x < y then x :: y :: rest else y :: insert x rest

/-- The set of the members of a list. -/
def ofList (xs : List κ) : List κ := xs.foldl (fun set x => insert x set) []

/-- The members of both sets. -/
def union (a b : List κ) : List κ := b.foldl (fun set x => insert x set) a

theorem mem_insert [LawfulBEq κ] {x y : κ} {xs : List κ} :
    y ∈ insert x xs ↔ y = x ∨ y ∈ xs := by
  induction xs with
  | nil => simp [insert]
  | cons z rest ih =>
    unfold insert
    split
    · rename_i h
      have hz := eq_of_beq h
      subst hz
      simp
    · split
      · simp
      · simp [ih, or_left_comm]

theorem mem_union [LawfulBEq κ] {y : κ} {a b : List κ} : y ∈ union a b ↔ y ∈ a ∨ y ∈ b := by
  unfold union
  induction b generalizing a with
  | nil => simp
  | cons x rest ih => simp [ih, mem_insert, or_assoc, or_left_comm]

theorem mem_ofList [LawfulBEq κ] {y : κ} {xs : List κ} : y ∈ ofList xs ↔ y ∈ xs := by
  rw [show ofList xs = union [] xs from rfl, mem_union]
  simp

section
variable (trans : ∀ a b c : κ, a < b → b < c → a < c) (total : ∀ a b : κ, a = b ∨ a < b ∨ b < a)
include trans total

theorem pairwise_insert [LawfulBEq κ] (x : κ) {xs : List κ} (h : xs.Pairwise (· < ·)) :
    (insert x xs).Pairwise (· < ·) := by
  induction xs with
  | nil => exact List.pairwise_singleton _ _
  | cons y rest ih =>
    obtain ⟨hy, hrest⟩ := List.pairwise_cons.1 h
    unfold insert
    split
    · exact h
    · rename_i hne
      split
      · rename_i hlt
        exact List.pairwise_cons.2 ⟨List.forall_mem_cons.2 ⟨hlt, fun z hz => trans _ _ _ hlt (hy z hz)⟩, h⟩
      · rename_i hge
        have hlt : y < x := ((total x y).resolve_left fun he => hne (by simp [he])).resolve_left hge
        refine List.pairwise_cons.2 ⟨fun z hz => ?_, ih hrest⟩
        rcases mem_insert.1 hz with rfl | hz
        · exact hlt
        · exact hy z hz

theorem pairwise_union [LawfulBEq κ] {a : List κ} (h : a.Pairwise (· < ·)) (b : List κ) :
    (union a b).Pairwise (· < ·) := by
  unfold union
  induction b generalizing a with
  | nil => exact h
  | cons x rest ih => exact ih (pairwise_insert trans total x h)

theorem pairwise_ofList [LawfulBEq κ] (xs : List κ) : (ofList xs).Pairwise (· < ·) :=
  pairwise_union trans total .nil xs

end

end ReactiveLang.Ascending
