import ReactiveLang.Proofs.Eval.Memory
import ReactiveLang.Proofs.Eval.Moving

/-!
# What is remembered of a node

Three parts of a step write to the memory: the start of a node that has a value from the pass
before, its finish in the program's frame, and the return of a call that it has made. Nothing else
changes what is remembered of the node (`execute_lookup_of_ne`, `settle_lookup_of_ne`).
-/

namespace ReactiveLang.Machine

variable {m m1 : Machine} {w : World} {s : Step} {streams : Streams} {node other : NodeId}
  {v : Value} {f g caller : Frame} {calls : List Frame}

/-! ## Effects of steps -/

theorem remember_lookup_of_ne (h : other ≠ node) :
    (m.remember w node).memo.lookup other = m.memo.lookup other := by
  unfold remember
  split
  · split
    · exact Keyed.lookup_insert_of_ne h _ _
    · rfl
  · rfl

/-- Where the last value of a call is not that of the node, nothing new is remembered of it. -/
theorem rememberCall_lookup_of_ne
    (h : ∀ n, caller.position = n + 1 → caller.steps[n]? ≠ some (.finish other)) :
    (m.rememberCall w caller).memo.lookup other = m.memo.lookup other := by
  unfold rememberCall
  split
  · rfl
  · rename_i n hn
    split
    · rename_i node hs
      refine remember_lookup_of_ne ?_
      rintro rfl
      exact h n hn hs
    · rfl

/-- Only the start of a node and its finish change what is remembered of it. -/
theorem execute_lookup_of_ne (hstart : s ≠ .start other) (hfinish : s ≠ .finish other)
    (he : m.execute w s = .ok (m1, streams)) : m1.memo.lookup other = m.memo.lookup other := by
  cases executes he with
  | start node =>
    obtain ⟨hnext, -⟩ | ⟨v, -, -, hnext⟩ := m.startNode_cases w node <;> rw [hnext]
    rw [push, withFrame_memo]
    refine (Keyed.lookup_insert_of_ne ?_ _ _).trans ?_
    · rintro rfl
      exact hstart rfl
    · rw [skip, withFrame_memo]
  | check => rw [checkReaction_memo]
  | jump => rw [skip, withFrame_memo]
  | jumpIf branched => rw [branch_memo branched]
  | @finish node o m2 _ _ performed =>
    have hmemo : m2.memo = m.memo := by rw [perform_memo performed, pop_memo]
    split
    · rw [remember_lookup_of_ne, hmemo]
      rintro rfl
      exact hfinish rfl
    · rw [hmemo]

/-- A value of the pass before may take the place of a node that may be remembered and whose
dependencies are as they were then. -/
theorem memoized?_eq_some_iff : memoized? w node = some v ↔ w.pass.memo.lookup node = some v ∧
    w.program.analysis.isMemoizable node = true ∧
      ∀ dependency ∈ w.program.analysis.streamDependencies node,
        dependency ∉ w.pass.changedCreators ∧ isPassDependent w.tree dependency = false := by
  unfold memoized?
  cases w.pass.memo.lookup node with
  | none => simp
  | some u =>
    cases w.program.analysis.isMemoizable node with
    | false => simp
    | true =>
      have hstale : ((w.program.analysis.streamDependencies node).any fun dependency =>
          w.pass.changedCreators.contains dependency || isPassDependent w.tree dependency) = false ↔
          ∀ dependency ∈ w.program.analysis.streamDependencies node,
            dependency ∉ w.pass.changedCreators ∧ isPassDependent w.tree dependency = false := by
        simp
      rw [← hstale]
      cases List.any _ _ <;> simp

section
variable (hm : w.program.analysis.isMemoizable node = true) (hv : v.isPortable = true)
include hm hv

theorem remember_lookup (hc : m.currentValue? = some v) :
    (m.remember w node).memo.lookup node = some v := by
  unfold remember
  rw [hc]
  simp [hm, hv]

/-- A node that finishes in the program's frame is remembered. -/
theorem execute_finish_lookup (he : m.execute w (.finish node) = .ok (m1, streams))
    (hf : m1.frames = [f]) (hvalue : f.values.head? = some v) :
    m1.memo.lookup node = some v := by
  cases executes he with
  | @finish _ o m2 _ _ performed =>
    obtain ⟨memo, hmemo⟩ := m2.remember_eq w node
    have hf2 : m2.frames = [f] := by
      split at hf
      · rwa [hmemo] at hf
      · exact hf
    have hin : m2.inProgram = true := by simp [inProgram, hf2]
    rw [if_pos hin]
    exact remember_lookup hm hv (by rw [currentValue?, hf2]; exact hvalue)

end

/-- What a node that starts is remembered with is a value of the pass before, if it is new. -/
theorem startNode_lookup_cases (h : (m.startNode w node).memo.lookup node = some v) :
    m.memo.lookup node = some v ∨ m.inProgram = true ∧ memoized? w node = some v := by
  obtain ⟨hnext, -⟩ | ⟨u, hin, hu, hnext⟩ := m.startNode_cases w node <;> rw [hnext] at h
  · exact .inl h
  · rw [push, withFrame_memo] at h
    obtain rfl : u = v := Option.some.inj ((Keyed.lookup_insert_self _ _ _).symm.trans h)
    exact .inr ⟨hin, hu⟩

/-- What a node that finishes is remembered with is the newest value, if it is new. -/
theorem execute_finish_lookup_cases (he : m.execute w (.finish node) = .ok (m1, streams))
    (h : m1.memo.lookup node = some v) :
    m.memo.lookup node = some v ∨ m1.inProgram = true ∧ m1.currentValue? = some v := by
  cases executes he with
  | @finish _ o m2 _ _ performed =>
    have hmemo : m2.memo = m.memo := by rw [perform_memo performed, pop_memo]
    split at h
    · rename_i hin
      rw [if_pos hin]
      obtain ⟨memo, hm⟩ := m2.remember_eq w node
      have hvalue : (m2.remember w node).currentValue? = m2.currentValue? := by rw [hm]; rfl
      have hprogram : (m2.remember w node).inProgram = true := by rw [hm]; exact hin
      rw [hvalue]
      unfold remember at h
      split at h
      · rename_i u hu
        split at h
        · obtain rfl : u = v := Option.some.inj ((Keyed.lookup_insert_self _ _ _).symm.trans h)
          exact .inr ⟨hprogram, hu⟩
        · exact .inl (hmemo ▸ h)
      · exact .inl (hmemo ▸ h)
    · exact .inl (hmemo ▸ h)

/-- A value that takes the place of a node's code is remembered again. -/
theorem startNode_lookup (hf : m.frames = [f]) (hf1 : (m.startNode w node).frames = [g])
    (hvalue : g.values = v :: f.values) : (m.startNode w node).memo.lookup node = some v := by
  obtain ⟨hnext, -⟩ | ⟨u, -, -, hnext⟩ := m.startNode_cases w node <;> rw [hnext] at hf1 ⊢
  · rw [hf] at hf1
    cases hf1
    exact absurd (congrArg List.length hvalue) (by simp)
  · simp only [push, skip, withFrame, hf, Frame.push, Frame.skip] at hf1 ⊢
    obtain rfl := (List.cons.inj hf1).1
    obtain rfl := (List.cons.inj hvalue).1
    exact Keyed.lookup_insert_self _ _ _

/-! ## Returns to the program's frame -/

theorem settle_alone (h : m.frames = [g]) :
    (m.settle w).memo = m.memo ∧ ((m.settle w).frames = [] ∨ m.settle w = m) := by
  cases hd : g.isDone with
  | true =>
    refine ⟨?_, .inl (settle_of_last h hd)⟩
    unfold settle
    rw [h]
    simp [leave, hd]
  | false =>
    obtain ⟨s, hn⟩ := Frame.exists_next? hd
    rw [settle_of_next? h hn]
    exact ⟨rfl, .inr rfl⟩

/-- What becomes of calls above the program's frame `g` when the frames that are done are left:
some still wait, or the program's frame has got a value. -/
inductive Returns (w : World) (m : Machine) (calls : List Frame) (g : Frame) (m' : Machine) :
    Prop where
  | waits {calls' : List Frame} (some : calls' ≠ []) (frames : m'.frames = calls' ++ [g])
      (memo : m'.memo = m.memo) (steps : ∀ f ∈ calls', ∃ f' ∈ calls, f.steps = f'.steps)
  | back {m1 : Machine} {v : Value} (memo : m1.memo = m.memo)
      (settles : m' = (handed w m1 g [] v).settle w)

theorem settle_returns (h : m.frames = f :: (calls ++ [g])) :
    Returns w m (f :: calls) g (m.settle w) := by
  induction calls generalizing f m with
  | nil =>
    cases hd : f.isDone with
    | true => exact .back rfl (settle_done h hd)
    | false =>
      obtain ⟨s, hn⟩ := Frame.exists_next? hd
      rw [settle_of_next? h hn]
      exact .waits (List.cons_ne_nil f []) h rfl fun f' hf' => ⟨f', hf', rfl⟩
  | cons caller rest ih =>
    cases hd : f.isDone with
    | true =>
      rw [List.cons_append] at h
      let pushed : Machine :=
        { m with frames := caller.push (m.frameResult w f) :: (rest ++ [g]) }
      have hpushed : handed w m caller (rest ++ [g]) (m.frameResult w f) = pushed := by
        unfold handed
        rw [if_neg (by simp)]
      rw [settle_done h hd, hpushed]
      have hreturns : Returns w pushed (caller.push (m.frameResult w f) :: rest) g
        (pushed.settle w) := ih rfl
      cases hreturns with
      | waits some frames memo steps =>
        refine .waits some frames memo fun f' hf' => ?_
        obtain ⟨f'', hf'', hs⟩ := steps f' hf'
        rcases List.mem_cons.1 hf'' with rfl | hf''
        · exact ⟨caller, by simp, hs⟩
        · exact ⟨f'', by simp [hf''], hs⟩
      | back memo settles => exact .back memo settles
    | false =>
      obtain ⟨s, hn⟩ := Frame.exists_next? hd
      rw [settle_of_next? h hn]
      exact .waits (List.cons_ne_nil f _) h rfl fun f' hf' => ⟨f', hf', rfl⟩

/-- Leaving frames that are done changes what is remembered of the node only where the program's
frame has got the value of a call that the node made. -/
theorem settle_lookup_of_ne (h : m.frames = calls ++ [g])
    (hg : calls ≠ [] → ∀ n, g.position = n + 1 → g.steps[n]? ≠ some (.finish other)) :
    (m.settle w).memo.lookup other = m.memo.lookup other := by
  cases calls with
  | nil => rw [(settle_alone h).1]
  | cons f calls =>
    cases settle_returns (w := w) h with
    | waits some frames memo => rw [memo]
    | @back m1 v memo settles =>
      rw [settles, (settle_alone (has_handed w m1 g [] v).frames).1, ← memo]
      exact rememberCall_lookup_of_ne (hg (List.cons_ne_nil f calls))

/-- A call of the node that has returned is remembered. -/
theorem settle_lookup (hm : w.program.analysis.isMemoizable node = true)
    (hv : v.isPortable = true) (h : m.frames = calls ++ [g]) (hc : calls ≠ [])
    (hf : (m.settle w).frames = [f]) (hvalue : f.values.head? = some v) {n : Nat}
    (hposition : f.position = n + 1) (hstep : f.steps[n]? = some (.finish node)) :
    (m.settle w).memo.lookup node = some v := by
  obtain ⟨top, calls, rfl⟩ := List.exists_cons_of_ne_nil hc
  cases settle_returns (w := w) h with
  | @waits calls' some frames =>
    rw [hf] at frames
    have hlen := congrArg List.length frames
    rw [List.length_append] at hlen
    have := List.length_pos_iff.2 some
    simp only [List.length_cons, List.length_nil] at hlen
    omega
  | @back m1 u memo settles =>
    have hhas := (has_handed w m1 g [] u).frames
    have hsame : m.settle w = handed w m1 g [] u := by
      obtain ⟨-, hnone | hsame⟩ := settle_alone (w := w) hhas
      · rw [settles, hnone] at hf
        cases hf
      · rw [settles, hsame]
    rw [hsame, hhas] at hf
    cases hf
    rw [hsame]
    have hremember : handed w m1 g [] u =
        ({ m1 with frames := [g.push u] } : Machine).remember w node := by
      show rememberCall _ w (g.push u) = _
      unfold rememberCall
      rw [hposition]
      dsimp only
      rw [hstep]
    rw [hremember]
    exact remember_lookup hm hv hvalue

end ReactiveLang.Machine
