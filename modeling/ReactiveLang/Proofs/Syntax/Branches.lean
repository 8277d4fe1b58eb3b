import ReactiveLang.Proofs.Syntax.Scopes

/-!
# Branches

A node in a branch of a conditional is evaluated only if the condition came out for that branch.
`Tree.Guarded` says so of the conditionals in the node's own scope, and `Tree.OnlyIf` also of those
around a definition that the node is in: such a definition was made in the branch, and its code runs
later. `RestsOn` names the type tests that decide a condition with negations, `&` and `|`, and
`Entails` those of which the condition's own outcome tells: if tests with such outcomes let the
condition come out so (`ComesOut`), then they have come out as it tells (`ComesOut.entails`).
-/

namespace ReactiveLang.Tree

variable (t : Tree)

/-- In its own scope, the node is in a branch that is chosen if the condition comes out so. -/
inductive Guarded : NodeId → Bool → NodeId → Prop where
  | yes {choice condition yes no : NodeId} (child : t.parent? yes = some choice)
      (chooses : t.construct choice = .conditional condition yes no) : Guarded condition true yes
  | no {choice condition yes no : NodeId} (child : t.parent? no = some choice)
      (chooses : t.construct choice = .conditional condition yes no) : Guarded condition false no
  | inside {condition : NodeId} {truth : Bool} {node parent : NodeId}
      (child : t.parent? node = some parent) (scope : t.scopeOf? parent = none)
      (guarded : Guarded condition truth parent) : Guarded condition truth node

/-- The node, or a definition around it, is in a branch that is chosen if the condition comes out
so. -/
def OnlyIf (condition : NodeId) (truth : Bool) (node : NodeId) : Prop :=
  t.Guarded condition truth node ∨
    ∃ definition, t.Encloses definition (t.home node) ∧ t.Guarded condition truth definition

/-- The outcome of the node follows from type tests, if it is a test itself or its operands are. -/
def isLogical (id : NodeId) : Bool :=
  match t.construct id with
  | .typeTest _ _ | .unary .not _ | .binary _ .and _ | .binary _ .or _ => true
  | _ => false

/-- The condition is the type test, or connects it with others. -/
inductive RestsOn : NodeId → NodeId → Prop where
  | test {test expression : NodeId} {tested : Annotation}
      (construct : t.construct test = .typeTest expression tested) : RestsOn test test
  | not {condition operand test : NodeId} (construct : t.construct condition = .unary .not operand)
      (rests : RestsOn operand test) : RestsOn condition test
  | left {condition left right test : NodeId} {operator : BinaryOperator}
      (construct : t.construct condition = .binary left operator right)
      (logical : operator = .and ∨ operator = .or) (rests : RestsOn left test) :
      RestsOn condition test
  | right {condition left right test : NodeId} {operator : BinaryOperator}
      (construct : t.construct condition = .binary left operator right)
      (logical : operator = .and ∨ operator = .or) (rests : RestsOn right test) :
      RestsOn condition test

/-- If the condition comes out so, then the type test has come out so, too: a negation tells of its
operand, an `&` that holds of both operands, and a `|` that fails. -/
inductive Entails : NodeId → Bool → NodeId → Bool → Prop where
  | test {test expression : NodeId} {tested : Annotation} (b : Bool)
      (construct : t.construct test = .typeTest expression tested) : Entails test b test b
  | not {condition operand test : NodeId} {b c : Bool}
      (construct : t.construct condition = .unary .not operand)
      (entails : Entails operand (!b) test c) : Entails condition b test c
  | andLeft {condition left right test : NodeId} {c : Bool}
      (construct : t.construct condition = .binary left .and right)
      (entails : Entails left true test c) : Entails condition true test c
  | andRight {condition left right test : NodeId} {c : Bool}
      (construct : t.construct condition = .binary left .and right)
      (entails : Entails right true test c) : Entails condition true test c
  | orLeft {condition left right test : NodeId} {c : Bool}
      (construct : t.construct condition = .binary left .or right)
      (entails : Entails left false test c) : Entails condition false test c
  | orRight {condition left right test : NodeId} {c : Bool}
      (construct : t.construct condition = .binary left .or right)
      (entails : Entails right false test c) : Entails condition false test c

/-- The condition can come out so if its type tests can come out as `outcome` says. What is no
connection of tests may come out in any way. -/
inductive ComesOut (outcome : NodeId → Bool → Prop) : NodeId → Bool → Prop where
  | test {test expression : NodeId} {tested : Annotation} {b : Bool}
      (construct : t.construct test = .typeTest expression tested) (can : outcome test b) :
      ComesOut outcome test b
  | not {condition operand : NodeId} {b : Bool}
      (construct : t.construct condition = .unary .not operand)
      (operand : ComesOut outcome operand b) : ComesOut outcome condition (!b)
  | and {condition left right : NodeId} {b c : Bool}
      (construct : t.construct condition = .binary left .and right)
      (left : ComesOut outcome left b) (right : ComesOut outcome right c) :
      ComesOut outcome condition (b && c)
  | or {condition left right : NodeId} {b c : Bool}
      (construct : t.construct condition = .binary left .or right)
      (left : ComesOut outcome left b) (right : ComesOut outcome right c) :
      ComesOut outcome condition (b || c)
  | other {condition : NodeId} (plain : t.isLogical condition = false) (b : Bool) :
      ComesOut outcome condition b

variable {t} {condition node parent child : NodeId} {truth : Bool}

section
variable {outcome : NodeId → Bool → Prop} {left right : NodeId} {b : Bool}
  (h : t.ComesOut outcome condition b)
include h

theorem ComesOut.test_cases {expression : NodeId} {tested : Annotation}
    (hc : t.construct condition = .typeTest expression tested) : outcome condition b := by
  cases h with
  | test _ hcan => exact hcan
  | not hc' | and hc' | or hc' => rw [hc] at hc'; cases hc'
  | other hp => simp [isLogical, hc] at hp

theorem ComesOut.not_cases {operand : NodeId} (hc : t.construct condition = .unary .not operand) :
    t.ComesOut outcome operand (!b) := by
  cases h with
  | not hc' ho =>
    rw [hc] at hc'
    cases hc'
    rwa [Bool.not_not]
  | test hc' | and hc' | or hc' => rw [hc] at hc'; cases hc'
  | other hp => simp [isLogical, hc] at hp

theorem ComesOut.and_cases (hc : t.construct condition = .binary left .and right) :
    ∃ l r, b = (l && r) ∧ t.ComesOut outcome left l ∧ t.ComesOut outcome right r := by
  cases h with
  | and hc' hl hr =>
    rw [hc] at hc'
    cases hc'
    exact ⟨_, _, rfl, hl, hr⟩
  | test hc' | not hc' | or hc' => rw [hc] at hc'; cases hc'
  | other hp => simp [isLogical, hc] at hp

theorem ComesOut.or_cases (hc : t.construct condition = .binary left .or right) :
    ∃ l r, b = (l || r) ∧ t.ComesOut outcome left l ∧ t.ComesOut outcome right r := by
  cases h with
  | or hc' hl hr =>
    rw [hc] at hc'
    cases hc'
    exact ⟨_, _, rfl, hl, hr⟩
  | test hc' | not hc' | and hc' => rw [hc] at hc'; cases hc'
  | other hp => simp [isLogical, hc] at hp

end

/-- The tests that the condition's outcome tells of have come out as it says. -/
theorem ComesOut.entails {outcome : NodeId → Bool → Prop} {test : NodeId} {b c : Bool}
    (h : t.ComesOut outcome condition b) (he : t.Entails condition b test c) : outcome test c := by
  induction he with
  | test b hc => exact h.test_cases hc
  | not hc _ ih => exact ih (h.not_cases hc)
  | andLeft hc _ ih | andRight hc _ ih =>
    obtain ⟨l, r, hb, hl, hr⟩ := h.and_cases hc
    obtain ⟨rfl, rfl⟩ := (Bool.and_eq_true l r).mp hb.symm
    first | exact ih hl | exact ih hr
  | orLeft hc _ ih | orRight hc _ ih =>
    obtain ⟨l, r, hb, hl, hr⟩ := h.or_cases hc
    obtain ⟨rfl, rfl⟩ := Bool.or_eq_false_iff.1 hb.symm
    first | exact ih hl | exact ih hr

/-- In its own scope, a child of a definition is in no branch. -/
theorem not_guarded_of_scope (hp : t.parent? child = some parent)
    (hs : (t.scopeOf? parent).isSome = true) : ¬ t.Guarded condition truth child := by
  intro h
  have hchoice : ∀ {choice yes no}, t.parent? child = some choice →
      t.construct choice ≠ .conditional condition yes no := by
    intro choice yes no hp' hc
    rw [hp] at hp'
    cases hp'
    rw [scopeOf?, hc] at hs
    cases hs
  cases h with
  | yes hp' hc => exact hchoice hp' hc
  | no hp' hc => exact hchoice hp' hc
  | inside hp' hs' =>
    rw [hp] at hp'
    cases hp'
    rw [hs'] at hs
    cases hs

theorem not_guarded_structureBody {body : NodeId} (h : t.isStructureBody body = true) :
    ¬ t.Guarded condition truth body := by
  unfold isStructureBody at h
  split at h
  · cases h
  · rename_i parent hp
    refine not_guarded_of_scope hp ?_
    split at h
    · rename_i hc
      rw [scopeOf?, hc]
      rfl
    · cases h

/-- The tests that a condition tells of are beneath it. -/
theorem Entails.reaches {test : NodeId} {outcome : Bool} (h : t.Entails condition truth test outcome)
    (hr : t.Reaches condition) : t.Reaches test := by
  induction h with
  | test => exact hr
  | not hc _ ih | andLeft hc _ ih | andRight hc _ ih | orLeft hc _ ih | orRight hc _ ih =>
    refine ih (hr.child ?_)
    simp [children, hc, Construct.children]

section
variable (w : t.WellFormed)
include w

theorem WellFormed.guarded_reaches (hr : t.Reaches node) (h : t.Guarded condition truth node) :
    t.Reaches condition := by
  induction h with
  | yes hp hc | no hp hc =>
    refine (w.parent_reaches hr hp).1.child ?_
    simp [children, hc, Construct.children]
  | inside hp _ _ ih => exact ih (w.parent_reaches hr hp).1

/-- The root is in no branch. -/
theorem WellFormed.not_guarded_root : ¬ t.Guarded condition truth t.root := by
  have hroot := w.parent_root
  intro h
  generalize t.root = root at h hroot
  cases h with
  | yes hp | no hp | inside hp =>
    rw [hroot] at hp
    cases hp

theorem WellFormed.not_guarded_programBlock : ¬ t.Guarded condition truth t.programBlock := by
  obtain ⟨block, hroot⟩ := w.root
  have hblock : t.programBlock = block := by rw [programBlock, hroot]
  have hp : t.parent? block = some t.root :=
    w.parent_child _ _ ⟨0, .root⟩ (by rw [children, hroot]; exact List.mem_singleton_self _)
  rw [hblock]
  intro h
  cases h with
  | yes hp' hc | no hp' hc =>
    rw [hp] at hp'
    cases hp'
    rw [hroot] at hc
    cases hc
  | inside hp' _ hg =>
    rw [hp] at hp'
    cases hp'
    exact w.not_guarded_root hg

/-- The statements of the program and of a structure's body are in no branch of their scope. -/
theorem WellFormed.not_guarded_statement {block statement : NodeId} (hb : t.Reaches block)
    (hs : statement ∈ t.statements block)
    (hplace : block = t.programBlock ∨ t.isStructureBody block = true) :
    ¬ t.Guarded condition truth statement := by
  obtain ⟨hc, -⟩ := mem_children_of_statement hs
  have hp := w.parent_child _ _ hb hc
  have hblock : ¬ t.Guarded condition truth block := by
    rcases hplace with rfl | hbody
    · exact w.not_guarded_programBlock
    · exact not_guarded_structureBody hbody
  have hchooses : ∀ {yes no : NodeId}, t.construct block ≠ .conditional condition yes no := by
    intro yes no hblock
    rw [statements, hblock] at hs
    cases hs
  intro h
  cases h with
  | yes hp' hc' | no hp' hc' =>
    rw [hp] at hp'
    cases hp'
    exact hchooses hc'
  | inside hp' _ hg =>
    rw [hp] at hp'
    cases hp'
    exact hblock hg

/-- What holds of a node in a branch holds of what is in the node. -/
theorem WellFormed.onlyIf_child (hr : t.Reaches parent) (hc : child ∈ t.children parent)
    (h : t.OnlyIf condition truth parent) : t.OnlyIf condition truth child := by
  have hp := w.parent_child _ _ hr hc
  have hhome := w.home_child hr hc
  cases hs : t.scopeOf? parent with
  | none =>
    rw [hs] at hhome
    rcases h with hg | ⟨definition, he, hg⟩
    · exact .inl (.inside hp hs hg)
    · exact .inr ⟨definition, by rw [hhome]; exact he, hg⟩
  | some scope =>
    rw [hs] at hhome
    rcases h with hg | ⟨definition, he, hg⟩
    · exact .inr ⟨parent, by rw [hhome]; exact .refl, hg⟩
    · exact .inr ⟨definition, by rw [hhome]; exact .around he, hg⟩

/-- What holds of a node in a branch holds of everything beneath it. -/
theorem WellFormed.onlyIf_of_isWithin (hr : t.Reaches node) {ancestor : NodeId}
    (hin : t.isWithin node ancestor = true) (h : t.OnlyIf condition truth ancestor) :
    t.OnlyIf condition truth node := by
  obtain ⟨n, hn⟩ := hr
  induction hn with
  | root =>
    have heq : t.root = ancestor := by simpa [isWithin, w.ancestors_root] using hin
    exact heq ▸ h
  | @child n parent node hp hc ih =>
    have hcases : node = ancestor ∨ t.isWithin parent ancestor = true := by
      rw [isWithin, w.ancestors_child ⟨n, hp⟩ hc, List.contains_cons] at hin
      simpa [isWithin, Bool.or_eq_true, beq_iff_eq, eq_comm (a := ancestor)] using hin
    rcases hcases with rfl | hin
    · exact h
    · exact w.onlyIf_child ⟨n, hp⟩ hc (ih hin)

/-- A node in a branch of a conditional is there only if the condition comes out for the branch. -/
theorem WellFormed.onlyIf_of_conditional (hr : t.Reaches node) {choice yes no : NodeId}
    (hchoice : t.Reaches choice) (hc : t.construct choice = .conditional condition yes no) :
    (t.isWithin node yes = true → t.OnlyIf condition true node) ∧
      (t.isWithin node no = true → t.OnlyIf condition false node) := by
  have hchildren : t.children choice = [condition, yes, no] := by rw [children, hc]; rfl
  have hyes := w.parent_child _ yes hchoice (by simp [hchildren])
  have hno := w.parent_child _ no hchoice (by simp [hchildren])
  exact ⟨fun h => w.onlyIf_of_isWithin hr h (.inl (.yes hyes hc)),
    fun h => w.onlyIf_of_isWithin hr h (.inl (.no hno hc))⟩

end
end ReactiveLang.Tree
