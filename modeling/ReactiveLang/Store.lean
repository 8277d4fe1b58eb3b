/-!
# Growing sequences

A `Store` is a sequence that grows at its end and whose items can be changed. Copies share what
they have in common, so that many states of one store can be kept. Items lie in a binary tree:
position zero at the root, position `2 * k + 1` at `k` of the left part and position `2 * k + 2`
at `k` of the right part.

Main statements: `get?_push` and `get?_modify` describe the operations by `get?`.
-/

namespace ReactiveLang

inductive StoreTree (α : Type) where
  | leaf
  | fork (item : Option α) (left right : StoreTree α)
  deriving Inhabited

namespace StoreTree

variable {α : Type}

/-- The item at the root. -/
def item? : StoreTree α → Option α
  | leaf => none
  | fork item _ _ => item

def left : StoreTree α → StoreTree α
  | leaf => leaf
  | fork _ left _ => left

def right : StoreTree α → StoreTree α
  | leaf => leaf
  | fork _ _ right => right

@[simp] theorem item?_fork (item : Option α) (l r : StoreTree α) : (fork item l r).item? = item :=
  rfl

@[simp] theorem left_fork (item : Option α) (l r : StoreTree α) : (fork item l r).left = l := rfl

@[simp] theorem right_fork (item : Option α) (l r : StoreTree α) : (fork item l r).right = r := rfl

def get? : StoreTree α → Nat → Option α
  | leaf, _ => none
  | fork item left right, i =>
    if i = 0 then item
    else if i % 2 = 1 then get? left (i / 2) else get? right (i / 2 - 1)

/-- The tree with an item at a position, where there may have been none. -/
def put (t : StoreTree α) (i : Nat) (x : α) : StoreTree α :=
  if i = 0 then fork (some x) t.left t.right
  else if i % 2 = 1 then fork t.item? (put t.left (i / 2) x) t.right
  else fork t.item? t.left (put t.right (i / 2 - 1) x)
termination_by i

/-- The tree with an item changed, if there is one. -/
def modify : StoreTree α → Nat → (α → α) → StoreTree α
  | leaf, _, _ => leaf
  | fork item left right, i, f =>
    if i = 0 then fork (item.map f) left right
    else if i % 2 = 1 then fork item (modify left (i / 2) f) right
    else fork item left (modify right (i / 2 - 1) f)

/-! ## Positions at the root, to the left and to the right -/

theorem position_cases (i : Nat) : i = 0 ∨ (∃ k, i = 2 * k + 1) ∨ ∃ k, i = 2 * k + 2 := by
  by_cases h : i = 0
  · exact .inl h
  · by_cases odd : i % 2 = 1
    · exact .inr (.inl ⟨i / 2, by omega⟩)
    · exact .inr (.inr ⟨i / 2 - 1, by omega⟩)

theorem get?_zero (t : StoreTree α) : t.get? 0 = t.item? := by
  cases t <;> simp [get?, item?]

theorem get?_odd (t : StoreTree α) (k : Nat) : t.get? (2 * k + 1) = t.left.get? k := by
  have half : (2 * k + 1) / 2 = k := by omega
  cases t <;> simp [get?, left, half]

theorem get?_even (t : StoreTree α) (k : Nat) : t.get? (2 * k + 2) = t.right.get? k := by
  cases t <;> simp [get?, right]

theorem put_zero (t : StoreTree α) (x : α) : t.put 0 x = fork (some x) t.left t.right := by
  simp [put]

theorem put_odd (t : StoreTree α) (k : Nat) (x : α) :
    t.put (2 * k + 1) x = fork t.item? (t.left.put k x) t.right := by
  have half : (2 * k + 1) / 2 = k := by omega
  rw [put]
  simp [half]

theorem put_even (t : StoreTree α) (k : Nat) (x : α) :
    t.put (2 * k + 2) x = fork t.item? t.left (t.right.put k x) := by
  rw [put]
  simp

theorem modify_zero (item : Option α) (l r : StoreTree α) (f : α → α) :
    (fork item l r).modify 0 f = fork (item.map f) l r := by
  simp [modify]

theorem modify_odd (item : Option α) (l r : StoreTree α) (k : Nat) (f : α → α) :
    (fork item l r).modify (2 * k + 1) f = fork item (l.modify k f) r := by
  have half : (2 * k + 1) / 2 = k := by omega
  simp [modify, half]

theorem modify_even (item : Option α) (l r : StoreTree α) (k : Nat) (f : α → α) :
    (fork item l r).modify (2 * k + 2) f = fork item l (r.modify k f) := by
  simp [modify]

/-! ## What is at a position -/

theorem get?_put (t : StoreTree α) (i j : Nat) (x : α) :
    (t.put i x).get? j = if j = i then some x else t.get? j := by
  induction i using Nat.strongRecOn generalizing t j with
  | _ i ih =>
    obtain rfl | ⟨k, rfl⟩ | ⟨k, rfl⟩ := position_cases i <;>
      obtain rfl | ⟨l, rfl⟩ | ⟨l, rfl⟩ := position_cases j
    · simp [put_zero, get?_zero]
    · simp [put_zero, get?_odd]
    · simp [put_zero, get?_even]
    · simp [put_odd, get?_zero]
    · have same : 2 * l + 1 = 2 * k + 1 ↔ l = k := by omega
      simp only [put_odd, get?_odd, left_fork, ih k (by omega), same]
    · have apart : 2 * l + 2 ≠ 2 * k + 1 := by omega
      simp only [put_odd, get?_even, right_fork, apart, if_false]
    · simp [put_even, get?_zero]
    · have apart : 2 * l + 1 ≠ 2 * k + 2 := by omega
      simp only [put_even, get?_odd, left_fork, apart, if_false]
    · have same : 2 * l + 2 = 2 * k + 2 ↔ l = k := by omega
      simp only [put_even, get?_even, right_fork, ih k (by omega), same]

theorem get?_modify (t : StoreTree α) (i j : Nat) (f : α → α) :
    (t.modify i f).get? j = if j = i then (t.get? j).map f else t.get? j := by
  induction t generalizing i j with
  | leaf => simp [modify, get?]
  | fork item l r hl hr =>
    obtain rfl | ⟨k, rfl⟩ | ⟨k, rfl⟩ := position_cases i <;>
      obtain rfl | ⟨n, rfl⟩ | ⟨n, rfl⟩ := position_cases j
    · simp [modify_zero, get?_zero]
    · simp [modify_zero, get?_odd]
    · simp [modify_zero, get?_even]
    · simp [modify_odd, get?_zero]
    · have same : 2 * n + 1 = 2 * k + 1 ↔ n = k := by omega
      simp only [modify_odd, get?_odd, left_fork, hl, same]
    · have apart : 2 * n + 2 ≠ 2 * k + 1 := by omega
      simp only [modify_odd, get?_even, right_fork, apart, if_false]
    · simp [modify_even, get?_zero]
    · have apart : 2 * n + 1 ≠ 2 * k + 2 := by omega
      simp only [modify_even, get?_odd, left_fork, apart, if_false]
    · have same : 2 * n + 2 = 2 * k + 2 ↔ n = k := by omega
      simp only [modify_even, get?_even, right_fork, hr, same]

end StoreTree

structure Store (α : Type) where
  items : StoreTree α
  size : Nat
  deriving Inhabited

namespace Store

variable {α : Type}

def empty : Store α := ⟨.leaf, 0⟩

def get? (s : Store α) (i : Nat) : Option α := s.items.get? i

/-- Adds an item at the end. -/
def push (s : Store α) (x : α) : Store α := ⟨s.items.put s.size x, s.size + 1⟩

/-- Changes the item at a position. -/
def modify (s : Store α) (i : Nat) (f : α → α) : Store α := ⟨s.items.modify i f, s.size⟩

@[simp] theorem size_push (s : Store α) (x : α) : (s.push x).size = s.size + 1 := rfl

@[simp] theorem size_modify (s : Store α) (i : Nat) (f : α → α) : (s.modify i f).size = s.size :=
  rfl

theorem get?_push (s : Store α) (x : α) (j : Nat) :
    (s.push x).get? j = if j = s.size then some x else s.get? j :=
  StoreTree.get?_put _ _ _ _

theorem get?_modify (s : Store α) (i j : Nat) (f : α → α) :
    (s.modify i f).get? j = if j = i then (s.get? j).map f else s.get? j :=
  StoreTree.get?_modify _ _ _ _

end Store
end ReactiveLang
