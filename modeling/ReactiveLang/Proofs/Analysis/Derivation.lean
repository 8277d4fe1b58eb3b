import ReactiveLang.Analysis.Typing

/-!
# Types that are derived without a cycle

`Tree.DerivesIn t k` is what the rule of types gives when it may be applied within itself up to `k`
times: each type that it needs is derived in fewer. A node whose type depends on itself derives
none.

* `DerivesIn.unique`: a node derives one type at most.
* `DerivesIn.shortest`: below the shortest derivation of a node, no derivation needs the node.
-/

namespace ReactiveLang

/-! ## Derivations -/

/-- The inquiry comes to an answer with known types for all that it asks. -/
def Inquiry.Concludes {α : Type} (t : Tree) (known : NodeId → Ty → Prop) : Inquiry α → α → Prop
  | answer value, a => value = a
  | typeOf id next, a => ∃ type, known id type ∧ (next type).Concludes t known a
  | resolve reference next, a => (next (t.resolve reference)).Concludes t known a

/-- The node derives the type in at most so many applications of the rule within each other. -/
def Tree.DerivesIn (t : Tree) : Nat → NodeId → Ty → Prop
  | 0, _, _ => False
  | k + 1, id, type => (Inquiry.typeRule t id).Concludes t (t.DerivesIn k) type

variable {α : Type} {t : Tree} {id : NodeId} {type : Ty} {k : Nat}

namespace Inquiry

variable {known known' : NodeId → Ty → Prop} {x : Inquiry α} {v v' : α}

theorem Concludes.mono (h : x.Concludes t known v)
    (himp : ∀ id type, known id type → known' id type) : x.Concludes t known' v := by
  induction x with
  | answer value => exact h
  | typeOf id next ih =>
    obtain ⟨type, hknown, hnext⟩ := h
    exact ⟨type, himp id type hknown, ih type hnext⟩
  | resolve reference next ih => exact ih (t.resolve reference) h

theorem Concludes.unique (h : x.Concludes t known v) (h' : x.Concludes t known' v')
    (hone : ∀ id type type', known id type → known' id type' → type = type') : v = v' := by
  induction x with
  | answer value => exact h.symm.trans h'
  | typeOf id next ih =>
    obtain ⟨type, hknown, hnext⟩ := h
    obtain ⟨type', hknown', hnext'⟩ := h'
    obtain rfl := hone id type type' hknown hknown'
    exact ih type hnext hnext'
  | resolve reference next ih => exact ih (t.resolve reference) h h'

end Inquiry

namespace Tree

theorem DerivesIn.succ (h : t.DerivesIn k id type) : t.DerivesIn (k + 1) id type := by
  induction k generalizing id type with
  | zero => exact h.elim
  | succ k ih => exact h.mono fun _ _ => ih

theorem DerivesIn.mono (h : t.DerivesIn k id type) {l : Nat} (hl : k ≤ l) :
    t.DerivesIn l id type := by
  induction hl with
  | refl => exact h
  | step _ ih => exact ih.succ

theorem DerivesIn.unique (h : t.DerivesIn k id type) {l : Nat} {type' : Ty}
    (h' : t.DerivesIn l id type') : type = type' := by
  induction k generalizing id type l type' with
  | zero => exact h.elim
  | succ k ih =>
    cases l with
    | zero => exact h'.elim
    | succ l => exact h.unique h' fun _ _ _ hk hl => ih hk hl

/-- A derivation and the shortest one of the same node. -/
theorem DerivesIn.shortest (h : t.DerivesIn k id type) :
    ∃ l, l < k ∧ t.DerivesIn (l + 1) id type ∧ ∀ type', ¬ t.DerivesIn l id type' := by
  induction k with
  | zero => exact h.elim
  | succ k ih =>
    by_cases hk : t.DerivesIn k id type
    · obtain ⟨l, hl, hd, hno⟩ := ih hk
      exact ⟨l, by omega, hd, hno⟩
    · refine ⟨k, Nat.lt_succ_self k, h, fun type' hd => hk ?_⟩
      rwa [h.unique hd]

end Tree

end ReactiveLang
