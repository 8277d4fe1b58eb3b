import ReactiveLang.Proofs.Eval.Runs

/-!
# What the recursion comes to

To evaluate the program is to evaluate nodes in its own evaluation, one within the other and one
after the other.

* `Direct.Before`: a child is next, when those before it have their values.
* `Direct.Visits`: a node is evaluated in the program's own evaluation, from this scene.
* `Direct.recallOf`: what may be remembered of a node is a value that it had there.
-/

namespace ReactiveLang.Direct

section
variable (p : Program) (pass : Pass)

/-- To evaluate the operands of a node comes to a child: the scene is `s` before the first one. -/
inductive Before (eval : NodeId → Direct Value) (current : EvaluationId) (node : NodeId)
    (s : Scene) : NodeId → Scene → Prop where
  | condition {condition yes no : NodeId} :
      p.tree.construct node = .conditional condition yes no → Before eval current node s condition s
  | choice {condition yes no : NodeId} {v : Value} {b : Bool} {s1 s2 : Scene} :
      p.tree.construct node = .conditional condition yes no →
      (eval condition).runFrom s = some (.ok v, s1) →
      (decision p pass node v).runFrom s1 = some (.ok b, s2) →
      Before eval current node s (if b then yes else no) s2
  | initial {initial condition next : NodeId} {s1 : Scene} :
      p.tree.construct node = .reaction initial condition next →
      (previousOf p pass current node).runFrom s = some (.ok none, s1) →
      Before eval current node s initial s1
  | again {initial condition next : NodeId} {previous : Value} {s1 : Scene} :
      p.tree.construct node = .reaction initial condition next →
      (previousOf p pass current node).runFrom s = some (.ok (some previous), s1) →
      Before eval current node s condition s1
  | next {initial condition next : NodeId} {previous v : Value} {s1 s2 s3 : Scene} :
      p.tree.construct node = .reaction initial condition next →
      (previousOf p pass current node).runFrom s = some (.ok (some previous), s1) →
      (eval condition).runFrom s1 = some (.ok v, s2) →
      (decision p pass node v).runFrom s2 = some (.ok true, s3) →
      Before eval current node s next s3
  | part {before later : List NodeId} {child : NodeId} {vs : List Value} {s1 : Scene} :
      p.tree.scopeOf? node = none → p.tree.children node = before ++ child :: later →
      (before.mapM eval).runFrom s = some (.ok vs, s1) → Before eval current node s child s1

variable {p pass} in
/-- What is next is a child of the node. -/
theorem Before.mem {eval : NodeId → Direct Value} {current : EvaluationId} {node child : NodeId}
    {s s' : Scene} (h : Before p pass eval current node s child s') :
    child ∈ p.tree.children node := by
  cases h with
  | part _ hsplit => rw [hsplit]; simp
  | @choice condition yes no v b s1 _ hnode =>
    rw [Tree.children, hnode]
    cases b <;> simp [Construct.children]
  | condition hnode | initial hnode | again hnode | next hnode =>
    rw [Tree.children, hnode]
    simp [Construct.children]

variable {p pass} in
/-- A definition has no operands. -/
theorem Before.scopeOf?_eq_none {eval : NodeId → Direct Value} {current : EvaluationId}
    {node child : NodeId} {s s' : Scene} (h : Before p pass eval current node s child s') :
    p.tree.scopeOf? node = none := by
  cases h with
  | part hs => exact hs
  | condition hnode | choice hnode | initial hnode | again hnode | next hnode =>
    rw [Tree.scopeOf?, hnode]

variable (reuse : NodeId → Option Value) (streams : Streams)

/-- To evaluate the program comes to a node in its own evaluation. -/
inductive Visits : NodeId → Scene → Prop where
  | program : Visits p.tree.root (Scene.start p streams)
  | child {fuel : Nat} {node child : NodeId} {s s' : Scene} :
      Visits node s → reuse node = none →
      Before p pass (evaluate p pass reuse fuel 1 .root) .root node s.spent child s' →
      Visits child s'

/-- A value that a node has when it is evaluated in the program's own evaluation, with streams that
are there afterwards. -/
def recallOf : Recall where
  allows size node v := ∃ fuel s s', Visits p pass reuse streams node s ∧
    (evaluate p pass reuse fuel 1 .root node).runFrom s = some (.ok v, s') ∧ s'.streams.size ≤ size
  more := by
    rintro n n' node v hle ⟨fuel, s, s', hvisits, hv, hsize⟩
    exact ⟨fuel, s, s', hvisits, hv, Nat.le_trans hsize hle⟩

end

end ReactiveLang.Direct
