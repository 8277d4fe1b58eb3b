import ReactiveLang.Proofs.Analysis.Narrowing
import ReactiveLang.Proofs.Syntax.Finishing
import ReactiveLang.Proofs.Types.Joining

/-!
# Narrowing as a filter

Whether a condition keeps a possible type depends on the condition, on how it came out and on that
type alone, not on the other types that are still possible. So narrowing is a filter of the members
of the declared type, and it does not matter in which order the guards come.

* `Analysis.Keeps`: the condition keeps the type if it comes out so.
* `Analysis.refine_filter`: refinement by a condition leaves the members that the condition keeps.
* `Analysis.narrow_filters`: narrowing leaves the members that every guard keeps.
* `Analysis.refine_contains_iff`: when refinement leaves a member for the type of a value for which
  the condition came out so.
-/

namespace ReactiveLang

open TypeSet (Reduced)

/-! ## Ancestors in a finished tree -/

section
variable {d : Draft} {root : NodeId} {t : Tree}

theorem Tree.mem_ancestorsFrom {ancestor : NodeId} {fuel : Nat} {id : NodeId}
    (h : ancestor ∈ t.ancestorsFrom fuel id) : ∃ child, t.parent? child = some ancestor := by
  induction fuel generalizing id with
  | zero => cases h
  | succ fuel ih =>
    unfold ancestorsFrom at h
    split at h
    · rename_i parent hp
      rcases List.mem_cons.1 h with rfl | h
      · exact ⟨id, hp⟩
      · exact ih h
    · cases h

/-- What has ancestors at all is in the tree. -/
theorem Draft.finish_reaches_ancestor (ht : d.finish root = .ok t) {id ancestor : NodeId}
    (h : ancestor ∈ t.ancestors id) : t.Reaches ancestor := by
  have hf := (finish_ok ht).2
  obtain ⟨child, hp⟩ := Tree.mem_ancestorsFrom h
  exact hf.reaches_iff.2 ((hf.parent_iff ancestor child).1 hp).1

end

namespace Tree

/-- The condition is the test after some negations. -/
inductive Negates (t : Tree) (test : NodeId) : NodeId → Prop where
  | test : Negates t test test
  | not {condition operand : NodeId} (construct : t.construct condition = .unary .not operand)
      (negates : Negates t test operand) : Negates t test condition

end Tree

namespace Analysis

variable {α β : Type} (a : Analysis)

theorem given_bind (inquiry : Inquiry α) (rest : α → Inquiry β) :
    a.given (inquiry >>= rest) = a.given (rest (a.given inquiry)) := by
  induction inquiry with
  | answer value => rfl
  | typeOf id next ih => exact ih _
  | resolve reference next ih => exact ih _

/-! ## What a condition keeps -/

/-- The conditions around the access that test the bind, each with the branch. -/
def guards (access bind : NodeId) : List (NodeId × Bool) :=
  a.given (Inquiry.guards a.tree access bind (a.tree.ancestors access))

/-- What is left of the possible types when the condition has come out as `truth`. -/
def refine (bind condition : NodeId) (truth : Bool) (possible : TypeSet) : TypeSet :=
  a.given (Inquiry.refine a.tree bind a.tree.nodes.size condition truth possible)

/-- What is left of the possible types after one guard and the other. -/
def refineAll (bind : NodeId) (guards : List (NodeId × Bool)) (possible : TypeSet) : TypeSet :=
  a.given (Inquiry.refineAll a.tree bind guards possible)

/-- The node is a test of what the bind's value is, against this annotation. -/
def TestOf (bind test : NodeId) (tested : Annotation) : Prop :=
  ∃ expression, a.tree.construct test = .typeTest expression tested ∧
    a.bindingOf expression = some bind

/-- That the condition came out as `truth` may tell something of the bind's value, by itself or by
what it tells of the operands. -/
def concerns (bind condition : NodeId) (truth : Bool) : Bool :=
  match a.tree.construct condition with
  | .typeTest expression _ => a.bindingOf expression = some bind
  | .unary .not _ => true
  | .binary _ .and _ => truth
  | .binary _ .or _ => !truth
  | _ => false

/-- The condition keeps the type among those that the bind's value can have, if it came out so. A
test keeps the types that the tested one contains, or the others if it failed, and both sides of an
`&` that holds or of an `|` that fails must keep it. -/
inductive Keeps (bind : NodeId) (member : Ty) : NodeId → Bool → Prop where
  | test {condition : NodeId} {tested : Annotation} {truth : Bool}
      (of : a.TestOf bind condition tested)
      (contains : (TypeSet.ofType (a.tree.annotationType condition tested)).contains member = truth) :
      Keeps bind member condition truth
  | not {condition operand : NodeId} {truth : Bool}
      (construct : a.tree.construct condition = .unary .not operand)
      (operand : Keeps bind member operand (!truth)) : Keeps bind member condition truth
  | and {condition left right : NodeId}
      (construct : a.tree.construct condition = .binary left .and right)
      (left : Keeps bind member left true) (right : Keeps bind member right true) :
      Keeps bind member condition true
  | or {condition left right : NodeId}
      (construct : a.tree.construct condition = .binary left .or right)
      (left : Keeps bind member left false) (right : Keeps bind member right false) :
      Keeps bind member condition false
  | other {condition : NodeId} {truth : Bool} (silent : a.concerns bind condition truth = false) :
      Keeps bind member condition truth

variable {a} {bind condition : NodeId} {member : Ty} {truth : Bool}

section
variable {operand left right : NodeId} {tested : Annotation}

theorem keeps_test (ht : a.TestOf bind condition tested) : a.Keeps bind member condition truth ↔
    (TypeSet.ofType (a.tree.annotationType condition tested)).contains member = truth := by
  constructor
  · intro h
    obtain ⟨expression, hc, hread⟩ := ht
    cases h with
    | test ht' hin =>
      obtain ⟨expression', hc', -⟩ := ht'
      rw [hc] at hc'
      cases hc'
      exact hin
    | not hc' | and hc' | or hc' => rw [hc] at hc'; cases hc'
    | other hs => simp [concerns, hc, hread] at hs
  · exact .test ht

theorem keeps_not (hc : a.tree.construct condition = .unary .not operand) :
    a.Keeps bind member condition truth ↔ a.Keeps bind member operand (!truth) := by
  constructor
  · intro h
    cases h with
    | not hc' ho =>
      rw [hc] at hc'
      cases hc'
      exact ho
    | test ht => obtain ⟨_, hc', -⟩ := ht; rw [hc] at hc'; cases hc'
    | and hc' | or hc' => rw [hc] at hc'; cases hc'
    | other hs => simp [concerns, hc] at hs
  · exact .not hc

theorem keeps_and (hc : a.tree.construct condition = .binary left .and right) :
    a.Keeps bind member condition true ↔
      a.Keeps bind member left true ∧ a.Keeps bind member right true := by
  constructor
  · intro h
    cases h with
    | and hc' hl hr =>
      rw [hc] at hc'
      cases hc'
      exact ⟨hl, hr⟩
    | test ht => obtain ⟨_, hc', -⟩ := ht; rw [hc] at hc'; cases hc'
    | not hc' => rw [hc] at hc'; cases hc'
    | other hs => simp [concerns, hc] at hs
  · exact fun ⟨hl, hr⟩ => .and hc hl hr

theorem keeps_or (hc : a.tree.construct condition = .binary left .or right) :
    a.Keeps bind member condition false ↔
      a.Keeps bind member left false ∧ a.Keeps bind member right false := by
  constructor
  · intro h
    cases h with
    | or hc' hl hr =>
      rw [hc] at hc'
      cases hc'
      exact ⟨hl, hr⟩
    | test ht => obtain ⟨_, hc', -⟩ := ht; rw [hc] at hc'; cases hc'
    | not hc' => rw [hc] at hc'; cases hc'
    | other hs => simp [concerns, hc] at hs
  · exact fun ⟨hl, hr⟩ => .or hc hl hr

end

/-! ## Refinement -/

/-- One filter after another leaves what both keep. -/
theorem filter_both {p q r : Ty → Prop} [DecidablePred p] [DecidablePred q] [DecidablePred r]
    (h : ∀ m, r m ↔ p m ∧ q m) (types : List Ty) :
    (types.filter (p ·)).filter (q ·) = types.filter (r ·) := by
  rw [List.filter_filter]
  refine List.filter_congr fun m _ => ?_
  simp [h, Bool.and_comm]

open scoped Classical in
theorem filter_silent (hs : a.concerns bind condition truth = false) (types : List Ty) :
    types.filter (a.Keeps bind · condition truth) = types :=
  List.filter_eq_self.2 fun _ _ => decide_eq_true (.other hs)

section
variable (w : a.tree.WellFormed)
include w

open scoped Classical in
theorem given_refine {fuel n : Nat} (hl : a.tree.Level n condition)
    (hfuel : a.tree.nodes.size ≤ n + fuel) {possible : TypeSet} (hs : Reduced possible.types) :
    a.given (Inquiry.refine a.tree bind fuel condition truth possible) =
      ⟨possible.types.filter (a.Keeps bind · condition truth)⟩ := by
  induction fuel generalizing n condition truth possible with
  | zero =>
    have := w.level_lt hl
    omega
  | succ fuel ih =>
    have hchild : ∀ {operand : NodeId} {truth : Bool} {possible : TypeSet},
        operand ∈ a.tree.children condition → Reduced possible.types →
          a.given (Inquiry.refine a.tree bind fuel operand truth possible) =
            ⟨possible.types.filter (a.Keeps bind · operand truth)⟩ :=
      fun hc hs => ih (hl.child hc) (by omega) hs
    have hsilent : a.concerns bind condition truth = false → possible =
        ⟨possible.types.filter (a.Keeps bind · condition truth)⟩ := by
      intro hs
      rw [filter_silent hs]
    unfold Inquiry.refine
    split
    · rename_i expression tested hc
      rw [given_bind]
      change a.given (if a.bindingOf expression = some bind then _ else _) = _
      by_cases hread : a.bindingOf expression = some bind
      · rw [if_pos hread]
        have hkeeps : ∀ m, a.Keeps bind m condition truth ↔
            (TypeSet.ofType (a.tree.annotationType condition tested)).contains m = truth :=
          fun m => keeps_test ⟨expression, hc, hread⟩
        cases truth with
        | true =>
          refine (hs.intersection _).trans (congrArg TypeSet.mk (List.filter_congr fun m _ => ?_))
          simp [hkeeps]
        | false =>
          refine (hs.difference _).trans (congrArg TypeSet.mk (List.filter_congr fun m _ => ?_))
          simp [hkeeps]
      · rw [if_neg hread]
        exact hsilent (by simp [concerns, hc, hread])
    · rename_i operand hc
      rw [hchild (by simp [Tree.children, hc, Construct.children]) hs]
      simp only [keeps_not hc]
    · rename_i left right hc
      cases truth with
      | true =>
        rw [if_pos rfl, given_bind,
          hchild (by simp [Tree.children, hc, Construct.children]) hs,
          hchild (by simp [Tree.children, hc, Construct.children]) (hs.filter _)]
        exact congrArg TypeSet.mk (filter_both (fun m => keeps_and hc) _)
      | false =>
        rw [if_neg Bool.false_ne_true]
        exact hsilent (by simp [concerns, hc])
    · rename_i left right hc
      cases truth with
      | true =>
        rw [if_pos rfl]
        exact hsilent (by simp [concerns, hc])
      | false =>
        rw [if_neg Bool.false_ne_true, given_bind,
          hchild (by simp [Tree.children, hc, Construct.children]) hs,
          hchild (by simp [Tree.children, hc, Construct.children]) (hs.filter _)]
        exact congrArg TypeSet.mk (filter_both (fun m => keeps_or hc) _)
    · rename_i hnone
      refine hsilent ?_
      unfold concerns
      split <;> first | rfl | (rename_i hc; exact absurd hc (by simp_all))

open scoped Classical in
/-- Refinement by a condition leaves the members that it keeps. -/
theorem refine_filter (hr : a.tree.Reaches condition) {possible : TypeSet}
    (hs : Reduced possible.types) : a.refine bind condition truth possible =
      ⟨possible.types.filter (a.Keeps bind · condition truth)⟩ :=
  hr.elim fun _ hl => given_refine w hl (Nat.le_add_left _ _) hs

open scoped Classical in
theorem refineAll_filter {guards : List (NodeId × Bool)}
    (hr : ∀ guard ∈ guards, a.tree.Reaches guard.1) {possible : TypeSet}
    (hs : Reduced possible.types) : a.refineAll bind guards possible =
      ⟨possible.types.filter fun m => ∀ guard ∈ guards, a.Keeps bind m guard.1 guard.2⟩ := by
  induction guards generalizing possible with
  | nil => simp [refineAll, Inquiry.refineAll, given, pure]
  | cons guard rest ih =>
    obtain ⟨hguard, hrest⟩ := List.forall_mem_cons.1 hr
    have hfirst : a.refine bind guard.1 guard.2 possible = _ := refine_filter w hguard hs
    have hstep : a.refineAll bind (guard :: rest) possible =
        a.refineAll bind rest (a.refine bind guard.1 guard.2 possible) := given_bind a _ _
    rw [hstep, hfirst, ih hrest (hs.filter _)]
    refine congrArg TypeSet.mk (filter_both (fun m => ?_) _)
    rw [List.forall_mem_cons]

end

/-! ## Guards -/

theorem mem_guards {access : NodeId} {ancestors : List NodeId} {guard : NodeId × Bool}
    (h : guard ∈ a.given (Inquiry.guards a.tree access bind ancestors)) :
    ∃ ancestor ∈ ancestors, guard.1 ∈ a.tree.children ancestor := by
  induction ancestors with
  | nil => exact absurd h List.not_mem_nil
  | cons ancestor rest ih =>
    have hrest : guard ∈ a.given (Inquiry.guards a.tree access bind rest) →
        ∃ other ∈ ancestor :: rest, guard.1 ∈ a.tree.children other := by
      intro h
      obtain ⟨other, ho, hc⟩ := ih h
      exact ⟨other, List.mem_cons_of_mem _ ho, hc⟩
    unfold Inquiry.guards at h
    split at h
    · rename_i condition yes no hc
      dsimp only at h
      split at h
      · exact hrest h
      · rw [given_bind, given_bind] at h
        change guard ∈ (if _ then _ ++ [(condition, _)] else _) at h
        split at h
        · rcases List.mem_append.1 h with h | h
          · exact hrest h
          · obtain rfl := List.mem_singleton.1 h
            exact ⟨ancestor, List.mem_cons_self, by simp [Tree.children, hc, Construct.children]⟩
        · exact hrest h
    · exact hrest h

theorem narrow_union {access : NodeId} {left right : Ty} (hg : a.guards access bind ≠ []) :
    a.narrow access bind (.union left right) =
      (a.refineAll bind (a.guards access bind) (.ofType (.union left right))).fold := by
  have hempty : (a.guards access bind).isEmpty = false := by simpa using hg
  unfold narrow Inquiry.narrow
  rw [given_bind]
  change a.given (if (a.guards access bind).isEmpty = true then _ else _) = _
  rw [hempty, if_neg Bool.false_ne_true, given_bind]
  rfl

/-- A condition that is one test after some negations tells the members of a type apart. -/
theorem keeps_of_negates {test : NodeId} {tested : Annotation} (ht : a.TestOf bind test tested)
    (hn : a.tree.Negates test condition) :
    a.Keeps bind member condition false ↔ ¬ a.Keeps bind member condition true := by
  induction hn with
  | test =>
    rw [keeps_test ht, keeps_test ht]
    exact Bool.not_eq_true _ ▸ Iff.rfl
  | not hnot _ ih =>
    rw [keeps_not hnot, keeps_not hnot]
    exact (not_iff_comm.1 ih.symm).symm

open scoped Classical in
/-- Narrowing a union by some guards leaves the members that each of them keeps, in their order,
whatever a context was asked before. So neither the order of the guards matters nor how often they
come, and what is left is within the union. A condition that is one test of the bind after some
negations leaves each member for just one of the two branches. -/
theorem narrow_filters {d : Draft} {root : NodeId} {t : Tree} (ht : d.finish root = .ok t)
    {access bind : NodeId} (hg : (ofTree t).guards access bind ≠ []) (left right : Ty) :
    let a := ofTree t
    let declared := Ty.union left right
    let members := (TypeSet.ofType declared).types
    (∀ earlier, ∃ answers now later,
      (Context.replies t earlier).run (.fresh t.nodes.size) = some (answers, now) ∧
        (Context.consult t (Inquiry.narrow t access bind declared)).run now =
          some (a.narrow access bind declared, later)) ∧
    a.narrow access bind declared = TypeSet.foldTypes
      (members.filter fun m => ∀ guard ∈ a.guards access bind, a.Keeps bind m guard.1 guard.2) ∧
    (∀ guards, (∀ guard, guard ∈ guards ↔ guard ∈ a.guards access bind) →
      (a.refineAll bind guards (.ofType declared)).fold = a.narrow access bind declared) ∧
    declared.accepts (a.narrow access bind declared) = true ∧
    ∀ condition test tested, t.Reaches condition → a.TestOf bind test tested →
      t.Negates test condition →
        let yes := (a.refine bind condition true (.ofType declared)).types
        let no := (a.refine bind condition false (.ofType declared)).types
        (yes ++ no).Perm members ∧ yes.Sublist members ∧ no.Sublist members ∧ ∀ m ∈ yes, m ∉ no := by
  intro a declared members
  have w : a.tree.WellFormed := Draft.finish_wellFormed ht
  have hs : Reduced (TypeSet.ofType declared).types := TypeSet.reduced_ofType declared
  have hreach : ∀ guard ∈ a.guards access bind, t.Reaches guard.1 := by
    intro guard hguard
    obtain ⟨ancestor, ha, hc⟩ := mem_guards hguard
    exact (Draft.finish_reaches_ancestor ht ha).child hc
  have hfilter : ∀ guards : List (NodeId × Bool), (∀ guard ∈ guards, t.Reaches guard.1) →
      a.refineAll bind guards (.ofType declared) =
        ⟨members.filter fun m => ∀ guard ∈ guards, a.Keeps bind m guard.1 guard.2⟩ :=
    fun guards hr => refineAll_filter w hr hs
  have hnarrow : a.narrow access bind declared = TypeSet.foldTypes (members.filter fun m =>
      ∀ guard ∈ a.guards access bind, a.Keeps bind m guard.1 guard.2) := by
    rw [narrow_union hg, hfilter _ hreach]
    rfl
  refine ⟨fun earlier => ?_, hnarrow, fun guards hsame => ?_, ?_, ?_⟩
  · obtain ⟨now, hearlier, hnow⟩ := Context.settles_replies t earlier (.fresh _) Context.sound_fresh
    obtain ⟨later, hlater, -⟩ :=
      Context.settles_consult t a (Inquiry.narrow t access bind declared) now hnow
    exact ⟨_, now, later, hearlier, hlater⟩
  · rw [hnarrow, hfilter guards fun guard h => hreach guard ((hsame guard).1 h)]
    simp only [TypeSet.fold, hsame]
  · rw [hnarrow, TypeSet.accepts_foldTypes]
    intro m hm
    exact Ty.accepts_of_member m.accepts_self (TypeSet.mem_of_mem_ofList (List.mem_filter.1 hm).1)
  · intro condition test tested hr htest hn
    dsimp only
    rw [refine_filter w hr hs, refine_filter w hr hs]
    have hno : members.filter (a.Keeps bind · condition false) =
        members.filter fun m => !decide (a.Keeps bind m condition true) := by
      refine List.filter_congr fun m _ => ?_
      simp [keeps_of_negates htest hn]
    refine ⟨?_, List.filter_sublist, List.filter_sublist, fun m hyes hm => ?_⟩
    · rw [hno]
      exact List.filter_append_perm _ _
    · have hkept := of_decide_eq_true (List.mem_filter.1 hyes).2
      exact (keeps_of_negates htest hn).1 (of_decide_eq_true (List.mem_filter.1 hm).2) hkept

/-- The tree of a program that declares a text or nothing and reads it in both branches of a
conditional, whose condition is that it is no text. -/
def absentTree : Tree :=
  ⟨#[⟨.text "hi", .zero⟩, ⟨.binding "x" (some (.union .text .nothing)) (some ⟨0⟩), .zero⟩,
    ⟨.reference "x", .zero⟩, ⟨.typeTest ⟨2⟩ .text, .zero⟩, ⟨.unary .not ⟨3⟩, .zero⟩,
    ⟨.reference "x", .zero⟩, ⟨.reference "x", .zero⟩, ⟨.conditional ⟨4⟩ ⟨5⟩ ⟨6⟩, .zero⟩,
    ⟨.block [⟨1⟩, ⟨7⟩], .zero⟩, ⟨.program ⟨8⟩, .zero⟩],
    #[some ⟨1⟩, some ⟨8⟩, some ⟨3⟩, some ⟨4⟩, some ⟨7⟩, some ⟨7⟩, some ⟨7⟩, some ⟨8⟩, some ⟨9⟩, none],
    ⟨9⟩⟩

theorem finish_absent : absentTree.edit.finish ⟨9⟩ = .ok absentTree := rfl

theorem reaches_absent : absentTree.Reaches ⟨4⟩ := by
  have hblock : absentTree.Reaches ⟨8⟩ := ⟨1, .child .root (by decide)⟩
  have hchoice : absentTree.Reaches ⟨7⟩ := hblock.child (by decide)
  exact hchoice.child (by decide)

theorem testOf_absent : (ofTree absentTree).TestOf ⟨1⟩ ⟨3⟩ .text := ⟨⟨2⟩, rfl, by decide +kernel⟩

theorem narrow_filters_absent :
    let a := ofTree absentTree
    let declared := Ty.union .text .nothing
    (absentTree.edit.finish ⟨9⟩ = .ok absentTree ∧ a.guards ⟨5⟩ ⟨1⟩ ≠ []) ∧
      a.narrow ⟨5⟩ ⟨1⟩ declared = .nothing ∧ declared.accepts .nothing = true ∧
      ((a.refine ⟨1⟩ ⟨4⟩ true (.ofType declared)).types ++
        (a.refine ⟨1⟩ ⟨4⟩ false (.ofType declared)).types).Perm [.text, .nothing] := by
  intro a declared
  have hguards : a.guards ⟨5⟩ ⟨1⟩ ≠ [] := by decide +kernel
  have hnarrow : a.narrow ⟨5⟩ ⟨1⟩ declared = .nothing := by decide +kernel
  have hmembers : (TypeSet.ofType declared).types = [.text, .nothing] := by decide +kernel
  obtain ⟨-, -, -, haccepts, hsplit⟩ := narrow_filters finish_absent hguards .text .nothing
  have hperm := (hsplit ⟨4⟩ ⟨3⟩ .text reaches_absent testOf_absent (.not rfl .test)).1
  exact ⟨⟨finish_absent, hguards⟩, hnarrow, hnarrow ▸ haccepts, hmembers ▸ hperm⟩

/-! ## Values that a refinement loses -/

section
variable (w : a.tree.WellFormed)
include w

/-- A condition keeps the types for which the tests of the bind that it tells of come out so. -/
theorem keeps_of_entails {k n : Nat} (hl : a.tree.Level n condition)
    (hk : a.tree.nodes.size ≤ n + k)
    (h : ∀ test tested outcome, a.TestOf bind test tested →
      a.tree.Entails condition truth test outcome →
        (TypeSet.ofType (a.tree.annotationType test tested)).contains member = outcome) :
    a.Keeps bind member condition truth := by
  induction k generalizing n condition truth with
  | zero =>
    have := w.level_lt hl
    omega
  | succ k ih =>
    have hchild : ∀ {operand : NodeId} {b : Bool}, operand ∈ a.tree.children condition →
        (∀ test outcome, a.tree.Entails operand b test outcome →
          a.tree.Entails condition truth test outcome) → a.Keeps bind member operand b :=
      fun hc he => ih (hl.child hc) (by omega) fun test tested outcome ht ho =>
        h test tested outcome ht (he test outcome ho)
    cases hs : a.concerns bind condition truth with
    | false => exact .other hs
    | true =>
      unfold concerns at hs
      split at hs
      · rename_i expression tested hc
        have ht : a.TestOf bind condition tested := ⟨expression, hc, by simpa using hs⟩
        exact .test ht (h condition tested truth ht (.test truth hc))
      · rename_i operand hc
        exact .not hc (hchild (by simp [Tree.children, hc, Construct.children])
          fun _ _ => .not hc)
      · rename_i left right hc
        subst hs
        exact .and hc
          (hchild (by simp [Tree.children, hc, Construct.children]) fun _ _ => .andLeft hc)
          (hchild (by simp [Tree.children, hc, Construct.children]) fun _ _ => .andRight hc)
      · rename_i left right hc
        obtain rfl : truth = false := by simpa using hs
        exact .or hc
          (hchild (by simp [Tree.children, hc, Construct.children]) fun _ _ => .orLeft hc)
          (hchild (by simp [Tree.children, hc, Construct.children]) fun _ _ => .orRight hc)
      · cases hs

omit w in
theorem Keeps.entails (h : a.Keeps bind member condition truth) {test : NodeId}
    {tested : Annotation} {outcome : Bool} (ht : a.TestOf bind test tested)
    (he : a.tree.Entails condition truth test outcome) :
    (TypeSet.ofType (a.tree.annotationType test tested)).contains member = outcome := by
  induction he with
  | test => exact (keeps_test ht).1 h
  | not hc _ ih => exact ih ((keeps_not hc).1 h) ht
  | andLeft hc _ ih => exact ih ((keeps_and hc).1 h).1 ht
  | andRight hc _ ih => exact ih ((keeps_and hc).1 h).2 ht
  | orLeft hc _ ih => exact ih ((keeps_or hc).1 h).1 ht
  | orRight hc _ ih => exact ih ((keeps_or hc).1 h).2 ht

theorem keeps_iff_entails (hr : a.tree.Reaches condition) :
    a.Keeps bind member condition truth ↔
      ∀ test tested outcome, a.TestOf bind test tested →
        a.tree.Entails condition truth test outcome →
          (TypeSet.ofType (a.tree.annotationType test tested)).contains member = outcome := by
  obtain ⟨n, hl⟩ := hr
  exact ⟨fun h test tested outcome => h.entails,
    keeps_of_entails w hl (Nat.le_add_left _ _)⟩

/-- What is left has a member for a type if the condition keeps a member that accepts it. -/
theorem contains_refine (hr : a.tree.Reaches condition) {possible : TypeSet}
    (hs : Reduced possible.types) {given : Ty} :
    (a.refine bind condition truth possible).contains given = true ↔
      ∃ m ∈ possible.types, m.accepts given = true ∧ a.Keeps bind m condition truth := by
  classical
  rw [refine_filter w hr hs, TypeSet.contains_iff]
  constructor
  · rintro ⟨m, hm, ha⟩
    obtain ⟨hm, hkept⟩ := List.mem_filter.1 hm
    exact ⟨m, hm, ha, of_decide_eq_true hkept⟩
  · rintro ⟨m, hm, ha, hkept⟩
    exact ⟨m, List.mem_filter.2 ⟨hm, decide_eq_true hkept⟩, ha⟩

end

/-- Refinement by a condition that came out so for a value, in its tests of the bind, leaves a
member for the type of the value just if some member that accepts this type is not ruled out by
those tests: a test that the value has passed rules out the members that the tested type does not
accept as a whole, and one that it has failed only members with an unknown part. -/
theorem refine_contains_iff {d : Draft} {root : NodeId} {t : Tree} (ht : d.finish root = .ok t)
    {condition bind : NodeId} (hr : t.Reaches condition) (declared : Ty) (v : Value) {truth : Bool}
    (hout : t.ComesOut (fun test outcome => ∀ tested, (ofTree t).TestOf bind test tested →
      outcome = (t.annotationType test tested).accepts v.typeOf) condition truth) :
    let a := ofTree t
    let members := (TypeSet.ofType declared).types
    let left := a.refine bind condition truth (.ofType declared)
    (left.contains v.typeOf = true ↔ ∃ m ∈ members, m.accepts v.typeOf = true ∧
      ∀ test tested passed, a.TestOf bind test tested → t.Entails condition truth test passed →
        passed = true ∨ m.isKnown = false →
          (TypeSet.ofType (t.annotationType test tested)).contains m = passed) ∧
    (declared.isKnown = true → declared.accepts v.typeOf = true →
      (∀ test tested, a.TestOf bind test tested → t.Entails condition truth test true →
        ∀ m ∈ members, m.accepts v.typeOf = true →
          (TypeSet.ofType (t.annotationType test tested)).contains m = true) →
      left.contains v.typeOf = true) := by
  intro a members left
  have w : a.tree.WellFormed := Draft.finish_wellFormed ht
  have hpassed : ∀ test tested passed, a.TestOf bind test tested →
      t.Entails condition truth test passed →
        passed = (t.annotationType test tested).accepts v.typeOf :=
    fun test tested passed htest he => hout.entails he tested htest
  have hiff : left.contains v.typeOf = true ↔ ∃ m ∈ members, m.accepts v.typeOf = true ∧
      ∀ test tested passed, a.TestOf bind test tested → t.Entails condition truth test passed →
        passed = true ∨ m.isKnown = false →
          (TypeSet.ofType (t.annotationType test tested)).contains m = passed := by
    refine (contains_refine w hr (TypeSet.reduced_ofType declared)).trans ?_
    refine exists_congr fun m => and_congr_right fun _ => and_congr_right fun ha => ?_
    rw [keeps_iff_entails w hr]
    constructor
    · exact fun h test tested passed htest he _ => h test tested passed htest he
    · intro h test tested passed htest he
      by_cases hcase : passed = true ∨ m.isKnown = false
      · exact h test tested passed htest he hcase
      · obtain ⟨hfailed, hknown⟩ := not_or.1 hcase
        have hno := hpassed test tested passed htest he
        rw [Bool.not_eq_true] at hfailed
        rw [hfailed] at hno ⊢
        exact TypeSet.not_contains_ofType (by simpa using hknown) ha hno.symm
  refine ⟨hiff, fun hk ha hwhole => hiff.2 ?_⟩
  obtain ⟨m, hm, hgiven⟩ :=
    TypeSet.contains_iff.1 (TypeSet.contains_ofType_of_isKnown hk v.typeOf_cases ha)
  refine ⟨m, hm, hgiven, fun test tested passed htest he hcase => ?_⟩
  have hknown : m.isKnown = true := Ty.isKnown_of_mem_members hk (TypeSet.mem_of_mem_ofList hm)
  have htrue : passed = true := hcase.resolve_right (by simp [hknown])
  subst htrue
  exact hwhole test tested htest he m hm hgiven

/-- A text that is no text after all: the condition has failed, so the value is a text. -/
theorem refine_contains_iff_absent :
    let a := ofTree absentTree
    let declared := Ty.union .text .nothing
    let v := Value.text "hi"
    (absentTree.edit.finish ⟨9⟩ = .ok absentTree ∧ absentTree.Reaches ⟨4⟩ ∧
      absentTree.ComesOut (fun test outcome => ∀ tested, a.TestOf ⟨1⟩ test tested →
        outcome = (absentTree.annotationType test tested).accepts v.typeOf) ⟨4⟩ false) ∧
      (a.refine ⟨1⟩ ⟨4⟩ false (.ofType declared)).contains v.typeOf = true := by
  intro a declared v
  have htested : ∀ tested, a.TestOf ⟨1⟩ ⟨3⟩ tested → tested = .text := by
    rintro tested ⟨expression, hc, -⟩
    cases hc
    rfl
  have hout : absentTree.ComesOut (fun test outcome => ∀ tested, a.TestOf ⟨1⟩ test tested →
      outcome = (absentTree.annotationType test tested).accepts v.typeOf) ⟨4⟩ (!true) := by
    refine .not rfl (.test rfl fun tested ht => ?_)
    rw [htested tested ht]
    decide +kernel
  have hentailed : ∀ test tested outcome, a.TestOf ⟨1⟩ test tested →
      absentTree.Entails ⟨4⟩ false test outcome → test = ⟨3⟩ ∧ outcome = true := by
    intro test tested outcome ht he
    cases he with
    | not hc he =>
      cases hc
      cases he with
      | test => exact ⟨rfl, rfl⟩
      | not hc | andLeft hc | andRight hc => cases hc
    | test _ hc | orLeft hc | orRight hc => cases hc
  refine ⟨⟨finish_absent, reaches_absent, hout⟩, ?_⟩
  refine (refine_contains_iff finish_absent reaches_absent declared v hout).1.2
    ⟨.text, by decide +kernel, by decide +kernel, fun test tested passed ht he _ => ?_⟩
  obtain ⟨rfl, rfl⟩ := hentailed test tested passed ht he
  rw [htested tested ht]
  decide +kernel

/-- The tree of a program that declares a number of any unit or nothing, and tests whether it is one
of milliseconds, which it is. -/
def durationTree : Tree :=
  ⟨#[⟨.number 5 StreamKind.milliseconds, .zero⟩,
    ⟨.binding "x" (some (.union (.number none) .nothing)) (some ⟨0⟩), .zero⟩,
    ⟨.reference "x", .zero⟩, ⟨.typeTest ⟨2⟩ (.number (some StreamKind.milliseconds)), .zero⟩,
    ⟨.reference "x", .zero⟩, ⟨.number 0 .unitless, .zero⟩, ⟨.conditional ⟨3⟩ ⟨4⟩ ⟨5⟩, .zero⟩,
    ⟨.block [⟨1⟩, ⟨6⟩], .zero⟩, ⟨.program ⟨7⟩, .zero⟩],
    #[some ⟨1⟩, some ⟨7⟩, some ⟨3⟩, some ⟨6⟩, some ⟨6⟩, some ⟨6⟩, some ⟨7⟩, some ⟨8⟩, none], ⟨8⟩⟩

theorem finish_duration : durationTree.edit.finish ⟨8⟩ = .ok durationTree := rfl

/-- The value passes the test, and nothing is left of its declared type: milliseconds do not accept
numbers of any unit. -/
theorem refine_loses_duration :
    let t := durationTree
    let a := ofTree t
    let declared := t.annotationType ⟨1⟩ (.union (.number none) .nothing)
    let v := Value.measurement 5 StreamKind.milliseconds
    t.edit.finish ⟨8⟩ = .ok t ∧ t.Reaches ⟨3⟩ ∧
      a.TestOf ⟨1⟩ ⟨3⟩ (.number (some StreamKind.milliseconds)) ∧ a.declaredType ⟨1⟩ = declared ∧
      declared.accepts v.typeOf = true ∧
      t.ComesOut (fun test outcome => ∀ tested, a.TestOf ⟨1⟩ test tested →
        outcome = (t.annotationType test tested).accepts v.typeOf) ⟨3⟩ true ∧
      (a.refine ⟨1⟩ ⟨3⟩ true (.ofType declared)).contains v.typeOf = false := by
  intro t a declared v
  have hblock : t.Reaches ⟨7⟩ := ⟨1, .child .root (by decide)⟩
  have hchoice : t.Reaches ⟨6⟩ := hblock.child (by decide)
  have hreaches : t.Reaches ⟨3⟩ := hchoice.child (by decide)
  have hc : t.construct ⟨3⟩ = .typeTest ⟨2⟩ (.number (some StreamKind.milliseconds)) := rfl
  have hread : a.bindingOf ⟨2⟩ = some ⟨1⟩ := by decide +kernel
  have hdeclared : a.declaredType ⟨1⟩ = declared := by decide +kernel
  have haccepts : declared.accepts v.typeOf = true := by decide +kernel
  have hpasses : (t.annotationType ⟨3⟩ (.number (some StreamKind.milliseconds))).accepts v.typeOf =
      true := by decide +kernel
  have hlost : (a.refine ⟨1⟩ ⟨3⟩ true (.ofType declared)).contains v.typeOf = false := by
    decide +kernel
  have htest : a.TestOf ⟨1⟩ ⟨3⟩ (.number (some StreamKind.milliseconds)) := ⟨⟨2⟩, hc, hread⟩
  have hcan : ∀ tested, a.TestOf ⟨1⟩ ⟨3⟩ tested →
      true = (t.annotationType ⟨3⟩ tested).accepts v.typeOf := by
    rintro tested ⟨expression, hc', -⟩
    obtain ⟨-, rfl⟩ := Construct.typeTest.inj (hc.symm.trans hc')
    exact hpasses.symm
  exact ⟨finish_duration, hreaches, htest, hdeclared, haccepts, .test hc hcan, hlost⟩

end Analysis
end ReactiveLang
