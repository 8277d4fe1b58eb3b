import ReactiveLang.Proofs.Eval.Binding

/-!
# What reactions yield

A reaction yields its value when it is finished, and the machine keeps that value for the next pass.
Nothing else that a machine does touches the values that it keeps.

* `SameGiven`: what the parts of a step leave alone; `execute_given` for its whole effect.
* `step_yields`: a step that yields a value keeps it, and no other one changes what is kept.
* `Retraces.lookup_reactions`: for each reaction a pass keeps what it has yielded last.
-/

namespace ReactiveLang

/-- What a reaction yields is what is seen of a value. -/
theorem World.outcome_reaction {w : World} {es : Evaluations} {current : EvaluationId}
    {node : NodeId} {operands : List Value} {v : Value}
    (h : w.outcome es current node operands = .ok (.reaction v)) : ∃ x, v = w.seen x := by
  unfold outcome at h
  dsimp only at h
  split at h
  all_goals first
    | (cases h; exact ⟨_, rfl⟩)
    | cases h
    | (rcases callOutcome_cases h with ⟨v, hv⟩ | ⟨kind, inputs, hv⟩ | ⟨call, hv⟩ <;> cases hv)
    | (rcases convertOutcome_cases h with ⟨v, hv⟩ | ⟨call, hv⟩ <;> cases hv)
    | (obtain ⟨v, -, hv⟩ := map_eq_ok h; cases hv)

/-- The values of reactions after an outcome of a node. -/
def Outcome.reacted (node : NodeId) (values : List (NodeId × Value)) :
    Outcome → List (NodeId × Value)
  | .reaction v => Keyed.insert node v values
  | _ => values

namespace Machine

variable {m m' : Machine} {w : World} {s : Step} {streams : Streams} {node : NodeId} {v : Value}

/-! ## What is given on -/

/-- `m'` has the result of `m` and the values of its reactions. -/
structure SameGiven (m m' : Machine) : Prop where
  result : m'.result = m.result
  reactions : m'.reactions = m.reactions

theorem SameGiven.refl (m : Machine) : SameGiven m m := ⟨rfl, rfl⟩

theorem SameGiven.trans {a b c : Machine} (h : SameGiven a b) (h' : SameGiven b c) :
    SameGiven a c :=
  ⟨h'.result.trans h.result, h'.reactions.trans h.reactions⟩

theorem sameGiven_withFrame (m : Machine) (change : Frame → Frame) :
    SameGiven m (m.withFrame change) := by
  unfold withFrame
  split <;> exact ⟨rfl, rfl⟩

theorem sameGiven_skip (m : Machine) (count : Nat) : SameGiven m (m.skip count) :=
  sameGiven_withFrame m _

theorem sameGiven_push (m : Machine) (v : Value) : SameGiven m (m.push v) :=
  sameGiven_withFrame m _

theorem sameGiven_pop (m : Machine) (count : Nat) : SameGiven m (m.pop count).2 := by
  unfold pop
  split <;> exact ⟨rfl, rfl⟩

theorem sameGiven_remember (m : Machine) (w : World) (node : NodeId) :
    SameGiven m (m.remember w node) := by
  obtain ⟨memo, hm⟩ := m.remember_eq w node
  rw [hm]
  exact ⟨rfl, rfl⟩

theorem sameGiven_advanced (m : Machine) : SameGiven m m.advanced :=
  SameGiven.trans (b := { m with index := m.index + 1, status := .running }) ⟨rfl, rfl⟩
    (sameGiven_skip _ 1)

theorem sameGiven_startNode (m : Machine) (w : World) (node : NodeId) :
    SameGiven m (m.startNode w node) := by
  obtain ⟨hstart, -⟩ | ⟨v, -, -, hstart⟩ := m.startNode_cases w node <;> rw [hstart]
  · exact .refl m
  · have hs := sameGiven_skip m (w.program.code.length node - 1)
    have hp := sameGiven_push { m.skip (w.program.code.length node - 1) with
      memo := Keyed.insert node v (m.skip (w.program.code.length node - 1)).memo } v
    exact ⟨hp.result.trans hs.result, hp.reactions.trans hs.reactions⟩

theorem sameGiven_checkReaction (m : Machine) (w : World) (node : NodeId) :
    SameGiven m (m.checkReaction w node) :=
  checkReaction_keeps node (.refl m) (fun _ _ _ => ⟨rfl, rfl⟩)
    fun _ _ h1 => h1.trans (sameGiven_skip _ _)

theorem sameGiven_branch {count : Nat} {when : Bool}
    (h : m.branch w node count when = .ok m') : SameGiven m m' := by
  have hpop := sameGiven_pop m 1
  obtain ⟨b, -, ⟨-, rfl⟩ | ⟨-, -, rfl⟩ | ⟨-, -, rfl⟩⟩ := branch_cases h
  · exact hpop
  · exact hpop.trans (sameGiven_skip _ count)
  · exact (hpop.trans (sameGiven_skip _ count)).trans (sameGiven_push _ _)

/-- Leaving frames may give a result, but keeps the values of reactions. -/
theorem settle_reactions (w : World) (m : Machine) : (m.settle w).reactions = m.reactions := by
  obtain ⟨_, _, _, _, heq⟩ := m.settle_eq w
  rw [heq]

/-! ## What a step yields -/

theorem perform_given {o : Outcome} (h : m.perform w node o = .ok (m', streams)) :
    m'.result = m.result ∧ m'.reactions = o.reacted node m.reactions := by
  cases o with
  | keep => cases h; exact ⟨rfl, rfl⟩
  | value v => cases h; exact ⟨(sameGiven_push m v).result, (sameGiven_push m v).reactions⟩
  | named name v =>
    cases h
    have hp := sameGiven_push (m.bind name v) v
    exact ⟨hp.result, hp.reactions⟩
  | reaction v =>
    cases h
    have hp := sameGiven_push { m with reactions := Keyed.insert node v m.reactions } v
    exact ⟨hp.result, hp.reactions⟩
  | stream kind inputs =>
    cases h
    have hp := sameGiven_push m (.stream (openStream w kind node inputs).1)
    exact ⟨hp.result, hp.reactions⟩
  | run call =>
    obtain ⟨m1, hm, h⟩ := bind_eq_ok h
    cases h
    obtain ⟨name, counts, -, -, -, rfl⟩ := enter_cases hm
    exact ⟨rfl, rfl⟩

/-- The effect of a step is no result, and only the finish of a node gives a value of a reaction. -/
theorem execute_given (h : m.execute w s = .ok (m', streams)) :
    SameGiven m m' ∧ (∀ node, s ≠ .finish node) ∨ ∃ node o, s = .finish node ∧
      m.outcomeOf w node = .ok o ∧ m'.result = m.result ∧
      m'.reactions = o.reacted node m.reactions := by
  cases executes h with
  | start node => exact .inl ⟨sameGiven_startNode _ _ _, nofun⟩
  | check node => exact .inl ⟨sameGiven_checkReaction _ _ _, nofun⟩
  | jump node count => exact .inl ⟨sameGiven_skip _ _, nofun⟩
  | jumpIf branched => exact .inl ⟨sameGiven_branch branched, nofun⟩
  | @finish node o m1 _ outcome performed =>
    have hpop := sameGiven_pop m (w.tree.construct node).operandCount
    obtain ⟨hres, hreact⟩ := perform_given performed
    have hrem : SameGiven m1 (if m1.inProgram then m1.remember w node else m1) := by
      split
      · exact sameGiven_remember _ _ _
      · exact .refl _
    exact .inr ⟨node, o, rfl, outcome, hrem.result.trans (hres.trans hpop.result),
      hrem.reactions.trans (hreact.trans (by rw [hpop.reactions]))⟩

/-- Only frames that are left, and failures, give a result. -/
theorem execute_result (h : m.execute w s = .ok (m', streams)) : m'.result = m.result := by
  obtain ⟨hgiven, -⟩ | ⟨node, o, -, -, hgiven, -⟩ := execute_given h
  · exact hgiven.result
  · exact hgiven

/-- The next step of the machine finishes a reaction with a value. -/
structure Yields (w : World) (m : Machine) (node : NodeId) (v : Value) : Prop where
  next : m.next? = some (.finish node)
  outcome : m.outcomeOf w node = .ok (.reaction v)
  /-- The pass may take the step. -/
  allowed : m.index < w.program.config.maxSteps

/-- The text that a machine yields, if it does so for a node. -/
def yieldedText? (w : World) (m : Machine) (node : NodeId) : Option String :=
  match m.outcomeOf w node with
  | .ok (.reaction (.text x)) =>
    if m.next? = some (.finish node) ∧ m.index < w.program.config.maxSteps then some x else none
  | _ => none

theorem yields_of_yieldedText? {x : String} (h : yieldedText? w m node = some x) :
    m.Yields w node (.text x) := by
  unfold yieldedText? at h
  split at h
  · rename_i y ho
    split at h
    · rename_i hstep
      cases h
      exact ⟨hstep.1, ho, hstep.2⟩
    · cases h
  · cases h

/-- A machine yields one value at most. -/
theorem Yields.unique {node' : NodeId} {v' : Value} (h : m.Yields w node v)
    (h' : m.Yields w node' v') : node' = node ∧ v' = v := by
  have hn := h.next.symm.trans h'.next
  cases hn
  have ho := h.outcome.symm.trans h'.outcome
  cases ho
  exact ⟨rfl, rfl⟩

/-- A step fails, or the pass may take it and it has its effect. -/
theorem step_effects (hs : m.step w = some (s, m', streams)) :
    m.next? = some s ∧ ((∃ f, effect w m s = .error f ∧ m' = m.advanced.fail f) ∨
      m.index < w.program.config.maxSteps ∧
        ∃ m1, m.advanced.execute w s = .ok (m1, streams) ∧ m' = m1.settle { w with streams }) := by
  rw [step_eq] at hs
  obtain ⟨s', hn, hs⟩ := Option.map_eq_some_iff.1 hs
  cases he : effect w m s' with
  | error f =>
    rw [he] at hs
    cases hs
    exact ⟨hn, .inl ⟨f, he, rfl⟩⟩
  | ok r =>
    rw [he] at hs
    obtain ⟨m1, streams1⟩ := r
    cases hs
    refine ⟨hn, .inr ⟨?_, m1, effect_ok he, rfl⟩⟩
    unfold effect at he
    split at he
    · cases he
    · omega

/-- A machine that yields a value does not fail. -/
theorem Yields.effect_ne_error (h : m.Yields w node v) (failure : Failure) :
    effect w m (.finish node) ≠ .error failure := by
  have hallowed := h.allowed
  have ho := (outcomeOf_advanced node).trans h.outcome
  intro he
  unfold effect at he
  rw [if_neg (by omega)] at he
  unfold execute at he
  simp only [finishNode_eq] at he
  rw [show w.outcome m.advanced.evaluations m.advanced.current node _ = _ from ho] at he
  cases he

/-- A step that yields a value keeps it, and no other step changes what is kept. -/
theorem step_yields (hs : m.step w = some (s, m', streams)) :
    (m'.reactions = m.reactions ∧ ∀ node v, ¬ m.Yields w node v) ∨
      ∃ node v, m.Yields w node v ∧ m'.reactions = Keyed.insert node v m.reactions := by
  have ha := (sameGiven_advanced m).reactions
  obtain ⟨hn, ⟨f, he, rfl⟩ | ⟨hallowed, m1, he, rfl⟩⟩ := step_effects hs
  · refine .inl ⟨ha, fun node v hy => ?_⟩
    cases hn.symm.trans hy.next
    exact hy.effect_ne_error f he
  · have hsettle := settle_reactions { w with streams } m1
    obtain ⟨hsame, hne⟩ | ⟨node, o, rfl, ho, -, hreact⟩ := execute_given he
    · refine .inl ⟨hsettle.trans (hsame.reactions.trans ha), fun node v hy => ?_⟩
      exact hne node (Option.some.inj (hn.symm.trans hy.next))
    · rw [outcomeOf_advanced] at ho
      rw [ha] at hreact
      by_cases hr : ∃ v, o = .reaction v
      · obtain ⟨v, rfl⟩ := hr
        exact .inr ⟨node, v, ⟨hn, ho, hallowed⟩, hsettle.trans hreact⟩
      · refine .inl ⟨hsettle.trans (hreact.trans ?_), fun node' v hy => ?_⟩
        · cases o with
          | reaction v => exact absurd ⟨v, rfl⟩ hr
          | _ => rfl
        · cases hn.symm.trans hy.next
          cases ho.symm.trans hy.outcome
          exact hr ⟨v, rfl⟩

/-! ## What a pass keeps -/

/-- What a reaction has yielded last in the first `count` steps. -/
def Yielded (w : World) (machines : Nat → Machine) (count : Nat) (node : NodeId) (v : Value) :
    Prop :=
  ∃ i < count, (machines i).Yields w node v ∧
    ∀ j, i < j → j < count → ∀ u, ¬ (machines j).Yields w node u

/-- The last step has yielded the value, or it has left it as it was. -/
theorem yielded_succ {machines : Nat → Machine} {count : Nat} :
    Yielded w machines (count + 1) node v ↔ (machines count).Yields w node v ∨
      Yielded w machines count node v ∧ ∀ u, ¬ (machines count).Yields w node u := by
  constructor
  · rintro ⟨i, hi, hy, hlast⟩
    rcases Nat.lt_succ_iff_lt_or_eq.1 hi with hi | rfl
    · exact .inr ⟨⟨i, hi, hy, fun j h1 h2 => hlast j h1 (Nat.lt_succ_of_lt h2)⟩,
        hlast count hi (Nat.lt_succ_self _)⟩
    · exact .inl hy
  · rintro (hy | ⟨⟨i, hi, hy, hlast⟩, hnone⟩)
    · exact ⟨count, Nat.lt_succ_self _, hy, fun j h1 h2 => by omega⟩
    · refine ⟨i, Nat.lt_succ_of_lt hi, hy, fun j h1 h2 => ?_⟩
      rcases Nat.lt_succ_iff_lt_or_eq.1 h2 with h2 | rfl
      · exact hlast j h1 h2
      · exact hnone

/-- Of the values that a reaction has yielded one is the last. -/
theorem exists_yielded {machines : Nat → Machine} {count i : Nat} (hi : i < count)
    (hy : (machines i).Yields w node v) : ∃ u, Yielded w machines count node u := by
  induction count with
  | zero => exact absurd hi (Nat.not_lt_zero i)
  | succ count ih =>
    by_cases hlast : ∃ u, (machines count).Yields w node u
    · obtain ⟨u, hu⟩ := hlast
      exact ⟨u, yielded_succ.2 (.inl hu)⟩
    · have hnone : ∀ u, ¬ (machines count).Yields w node u := fun u hu => hlast ⟨u, hu⟩
      rcases Nat.lt_succ_iff_lt_or_eq.1 hi with hlt | rfl
      · obtain ⟨u, hu⟩ := ih hlt
        exact ⟨u, yielded_succ.2 (.inr ⟨hu, hnone⟩)⟩
      · exact absurd hy (hnone v)

/-- For each reaction a machine keeps what the steps before it have yielded last. -/
theorem Retraces.lookup_reactions {count : Nat} {steps : Nat → Option Step}
    (h : m.Retraces w count steps) (hm : m.reactions = []) {i : Nat} (hi : i ≤ count) :
    (m.after w i).reactions.lookup node = some v ↔ Yielded w (m.after w) i node v := by
  induction i with
  | zero =>
    rw [show (m.after w 0).reactions = [] from hm]
    exact ⟨nofun, fun ⟨_, hlt, _⟩ => absurd hlt (Nat.not_lt_zero _)⟩
  | succ i ih =>
    obtain ⟨st, -, hs⟩ := h i hi
    rw [yielded_succ, ← ih (Nat.le_of_succ_le hi)]
    obtain ⟨hsame, hnone⟩ | ⟨other, u, hy, hkept⟩ := step_yields hs
    · rw [hsame]
      simp [hnone]
    · rw [hkept]
      by_cases ho : node = other
      · subst ho
        rw [Keyed.lookup_insert_self]
        constructor
        · intro hv
          cases hv
          exact .inl hy
        · rintro (hy' | ⟨-, hnone⟩)
          · rw [(hy.unique hy').2]
          · exact absurd hy (hnone u)
      · rw [Keyed.lookup_insert_of_ne ho]
        have hnone : ∀ u', ¬ (m.after w i).Yields w node u' := fun u' hy' => ho (hy.unique hy').1
        simp [hnone]

end Machine
end ReactiveLang
