import ReactiveLang.Proofs.Eval.Retracing
import ReactiveLang.Proofs.Value.Induction

/-!
# What a pass remembers

Only portable values are remembered (`Recallable`), by every step and so by a whole run
(`step_recallable`, `Retraces.recallable`). A portable value without a failure names no evaluation
but the program's own, so it means the same in the next pass (`Value.rooted_of_isPortable`).
-/

namespace ReactiveLang

namespace Value

theorem allPortable_iff (items : List Value) :
    allPortable items = true ↔ ∀ v ∈ items, v.isPortable = true := by
  induction items with
  | nil => simp [allPortable]
  | cons v rest ih => simp [allPortable, ih]

theorem entriesPortable_iff (entries : List (Value × Value)) :
    entriesPortable entries = true ↔
      ∀ e ∈ entries, e.1.isPortable = true ∧ e.2.isPortable = true := by
  induction entries with
  | nil => simp [entriesPortable]
  | cons e rest ih =>
    obtain ⟨k, v⟩ := e
    simp [entriesPortable, ih, and_assoc]

/-- A portable value points to streams only. -/
theorem holds_of_isPortable {ok : Handle → Prop} (hok : ∀ id, ok (.stream id)) {n : Nat} {v : Value}
    (h : v.isPortable = true) (hv : v.Holds (Handle.Known n)) : v.Holds ok := by
  induction v using induct with
  | nothing => exact holds_nothing
  | boolean b => exact holds_boolean b
  | text s => exact holds_text s
  | measurement x unit => exact holds_measurement x unit
  | list items ih =>
    rw [holds_list] at hv ⊢
    exact fun v hm => ih v hm ((allPortable_iff items).1 h v hm) (hv v hm)
  | set items ih =>
    rw [holds_set] at hv ⊢
    exact fun v hm => ih v hm ((allPortable_iff items).1 h v hm) (hv v hm)
  | map entries ih =>
    rw [holds_map] at hv ⊢
    intro e he
    obtain ⟨hk, hp⟩ := (entriesPortable_iff entries).1 h e he
    exact ⟨(ih e he).1 hk (hv e he).1, (ih e he).2 hp (hv e he).2⟩
  | instanceOf object ih => cases h
  | exception kind node ih => exact False.elim (hv .failure (List.mem_cons_self ..))
  | stream id => exact (holds_stream id).2 (hok id)
  | function callable =>
    cases callable with
    | text method receiver => exact holds_of_handles_nil rfl
    | stream kind => exact holds_of_handles_nil rfl
    | _ => cases h

/-- A portable value names no evaluation but the program's own. -/
theorem rooted_of_isPortable {n : Nat} {v : Value} (h : v.isPortable = true)
    (hv : v.Holds (Handle.Known n)) : v.Holds Handle.Rooted :=
  holds_of_isPortable (fun _ => nofun) h hv

end Value

/-- Every value in the memory may be used in a later pass. -/
def Recallable (memo : List (NodeId × Value)) : Prop := ∀ e ∈ memo, e.2.isPortable = true

theorem Recallable.insert {memo : List (NodeId × Value)} (h : Recallable memo) (node : NodeId)
    {v : Value} (hv : v.isPortable = true) : Recallable (Keyed.insert node v memo) := by
  intro e he
  rcases Keyed.mem_insert he with rfl | he
  · exact hv
  · exact h e he

namespace Machine

variable {m m' : Machine} {w : World}

theorem withFrame_memo (m : Machine) (change : Frame → Frame) :
    (m.withFrame change).memo = m.memo := by
  unfold withFrame
  split <;> rfl

theorem advanced_memo (m : Machine) : m.advanced.memo = m.memo := by
  rw [advanced, skip, withFrame_memo]

theorem pop_memo (m : Machine) (count : Nat) : (m.pop count).2.memo = m.memo := by
  unfold pop
  split <;> rfl

theorem remember_recallable (h : Recallable m.memo) (w : World) (node : NodeId) :
    Recallable (m.remember w node).memo := by
  unfold remember
  split
  · split
    · rename_i hm
      exact h.insert node (Bool.and_eq_true_iff.1 hm).2
    · exact h
  · exact h

theorem startNode_recallable (h : Recallable m.memo) (hp : Recallable w.pass.memo)
    (node : NodeId) : Recallable (m.startNode w node).memo := by
  obtain ⟨hstart, -⟩ | ⟨v, -, hv, hstart⟩ := m.startNode_cases w node <;> rw [hstart]
  · exact h
  · rw [push, withFrame_memo]
    refine Recallable.insert ?_ node (hp _ (memoized?_mem hv))
    rw [skip, withFrame_memo]
    exact h

theorem checkReaction_memo (m : Machine) (w : World) (node : NodeId) :
    (m.checkReaction w node).memo = m.memo := by
  refine checkReaction_keeps (P := fun m1 => m1.memo = m.memo) node rfl (fun _ _ _ => rfl)
    fun m1 _ h1 => ?_
  rw [skip, withFrame_memo, h1]

theorem branch_memo {node : NodeId} {count : Nat} {when : Bool}
    (h : m.branch w node count when = .ok m') : m'.memo = m.memo := by
  obtain ⟨b, -, ⟨-, rfl⟩ | ⟨-, -, rfl⟩ | ⟨-, -, rfl⟩⟩ := branch_cases h
  · exact pop_memo m 1
  · rw [skip, withFrame_memo, pop_memo]
  · rw [push, withFrame_memo, skip, withFrame_memo, pop_memo]

theorem perform_memo {node : NodeId} {o : Outcome} {streams : Streams}
    (h : m.perform w node o = .ok (m', streams)) : m'.memo = m.memo := by
  cases o with
  | keep => cases h; rfl
  | value v => cases h; exact withFrame_memo _ _
  | named name v => cases h; exact withFrame_memo _ _
  | reaction v => cases h; exact withFrame_memo _ _
  | stream kind inputs => cases h; exact withFrame_memo _ _
  | run call =>
    obtain ⟨m1, hm, h⟩ := bind_eq_ok h
    cases h
    obtain ⟨name, counts, -, -, -, rfl⟩ := enter_cases hm
    rfl

theorem execute_recallable {s : Step} {streams : Streams} (h : Recallable m.memo)
    (hp : Recallable w.pass.memo) (he : m.execute w s = .ok (m', streams)) :
    Recallable m'.memo := by
  cases executes he with
  | start node => exact startNode_recallable h hp node
  | check node =>
    rw [checkReaction_memo]
    exact h
  | jump node count =>
    rw [skip, withFrame_memo]
    exact h
  | jumpIf branched =>
    rw [branch_memo branched]
    exact h
  | @finish node o m1 _ _ performed =>
    have h1 : Recallable m1.memo := by
      rw [perform_memo performed, pop_memo]
      exact h
    split
    · exact remember_recallable h1 w node
    · exact h1

theorem rememberCall_recallable (h : Recallable m.memo) (w : World) (caller : Frame) :
    Recallable (m.rememberCall w caller).memo := by
  unfold rememberCall
  split
  · exact h
  · split
    · exact remember_recallable h w _
    · exact h

theorem leave_recallable {rest : List Frame} {f : Frame} (h : Recallable m.memo) :
    Recallable (leave w f rest m).memo := by
  induction rest generalizing f m with
  | nil =>
    unfold leave
    split <;> exact h
  | cons caller rest ih =>
    unfold leave
    split
    · dsimp only
      split
      · refine ih (rememberCall_recallable ?_ w _)
        exact h
      · refine ih ?_
        exact h
    · exact h

theorem settle_recallable (h : Recallable m.memo) : Recallable (m.settle w).memo := by
  unfold settle
  split
  · exact leave_recallable h
  · exact h

/-- A step remembers nothing but portable values. -/
theorem step_recallable {s : Step} {streams : Streams} (h : Recallable m.memo)
    (hp : Recallable w.pass.memo) (hs : m.step w = some (s, m', streams)) : Recallable m'.memo := by
  have ha : Recallable m.advanced.memo := by
    rw [advanced_memo]
    exact h
  obtain ⟨-, ⟨f, -, rfl, -⟩ | ⟨m1, he, rfl⟩⟩ := step_cases hs
  · exact ha
  · exact settle_recallable (execute_recallable ha hp he)

theorem Retraces.recallable {count : Nat} {steps : Nat → Option Step} (h : m.Retraces w count steps)
    (hm : Recallable m.memo) (hp : Recallable w.pass.memo) {i : Nat} (hi : i ≤ count) :
    Recallable (m.after w i).memo := by
  induction i with
  | zero => exact hm
  | succ i ih =>
    obtain ⟨s, -, hs⟩ := h i hi
    exact step_recallable (ih (Nat.le_of_lt hi)) hp hs

end Machine
end ReactiveLang
