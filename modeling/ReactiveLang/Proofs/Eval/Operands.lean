import ReactiveLang.Proofs.Eval.Layout
import ReactiveLang.Proofs.Eval.Tracking
import ReactiveLang.Proofs.Eval.Visits

/-!
# The operands of a node

The code between the start and the finish of a node does what `Direct.operandsOf` does
(`operandsOf_follows`), if the code of its children does what it should (`Evaluates`) from the scenes
that they come to (`Before`). A jump lands
where the steps of the chosen child begin, or where the node finishes.
-/

namespace ReactiveLang

open Pass Direct

variable {r : Recall} {p : Program} {pass : Pass} {fuel : Nat} {s : Scene} {f : Frame}
  {rest : List Frame}
  {n : Nat} {node : NodeId} {current : EvaluationId}

/-! ## Choices -/

section
variable {m m1 : Machine} {w : World} {v : Value} {count : Nat}

theorem branch_boolean {b : Bool} (hpop : m.pop 1 = ([v], m1)) (hv : w.seen v = .boolean b) :
    m.branch w node count false = .ok (if b then m1 else
      if Machine.isReaction w.tree node then
        (m1.skip count).push ((w.pass.reactions.lookup node).getD .nothing)
      else m1.skip count) := by
  unfold Machine.branch
  rw [hpop]
  simp only [World.operand, List.getD_cons_zero, hv]
  cases b with
  | true => rfl
  | false =>
    simp only [if_true, Bool.false_eq_true, if_false]
    split <;> rfl

theorem branch_other (hpop : m.pop 1 = ([v], m1)) (hv : ∀ b, w.seen v ≠ .boolean b) :
    m.branch w node count false = .error ⟨.typeMismatch .boolean (w.seen v), node⟩ := by
  unfold Machine.branch
  rw [hpop]
  simp only [World.operand, List.getD_cons_zero]

theorem decision_boolean {b : Bool} (hv : (s.world p pass).seen v = .boolean b) :
    (decision p pass node v).runFrom s = some (.ok b, s.spent) := by
  unfold decision
  rw [runFrom_bind_ok runFrom_spend, runFrom_bind_ok runFrom_get]
  have hv' : (s.spent.world p pass).seen v = .boolean b := hv
  rw [hv']
  rfl

theorem decision_other (hv : ∀ b, (s.world p pass).seen v ≠ .boolean b) :
    (decision p pass node v).runFrom s =
      some (.error ⟨.typeMismatch .boolean ((s.world p pass).seen v), node⟩, s.spent) := by
  unfold decision
  rw [runFrom_bind_ok runFrom_spend, runFrom_bind_ok runFrom_get]
  have hv' : (s.spent.world p pass).seen v = (s.world p pass).seen v := rfl
  rw [hv']
  split
  · rename_i b hb
    exact absurd hb (hv b)
  · rfl

end

/-- What a reaction keeps when its condition does not hold; a conditional keeps nothing. -/
def keptValues (p : Program) (pass : Pass) (node : NodeId) : List Value :=
  if Machine.isReaction p.tree node then [(pass.reactions.lookup node).getD .nothing] else []

/-- A decision goes on to the next step, or beyond the steps that it passes over. -/
theorem decision_follows {v : Value} {count : Nat}
    (hn : (f.passed n [v]).next? = some (.jumpIf node count false)) :
    Follows r p pass fuel (decision p pass node v) s (f.passed n [v] :: rest)
      (fun b => (if b then f.passed (n + 1) []
        else f.passed (n + 1 + count) (keptValues p pass node)) :: rest)
      (fun _ => True) := by
  intro hs c hc
  refine tracks_step hc hn (Nat.le_succ fuel) fun m hm => ?_
  have hm1 : s.spent.At r (f.passed (n + 1) [v].reverse :: rest) (m, s.streams) := hm
  obtain ⟨hvalues, hpop⟩ := hm1.pop
  have hpair : m.pop 1 = ([v], (m.pop 1).2) := Prod.ext hvalues rfl
  by_cases hb : ∃ b, (s.world p pass).seen v = .boolean b
  · obtain ⟨b, hb⟩ := hb
    rw [decision_boolean hb]
    simp only [Machine.execute, branch_boolean hpair hb]
    refine tracks_ok m (.refl _) hs.spent trivial ?_
    cases b with
    | true => exact hpop
    | false =>
      have hskip := hpop.skip count
      by_cases hr : Machine.isReaction p.tree node = true
      · simpa [keptValues, hr] using hskip.push _
      · simpa [keptValues, hr] using hskip
  · have hb' : ∀ b, (s.world p pass).seen v ≠ .boolean b := fun b h => hb ⟨b, h⟩
    rw [decision_other hb']
    simp only [Machine.execute, branch_other hpair hb']
    exact tracks_error hm1.leaves rfl _

/-- The steps that were not chosen are passed over. -/
theorem jump_follows {count : Nat} {values : List Value}
    (hn : (f.passed n values).next? = some (.jump node count)) :
    Follows r p pass fuel spend s (f.passed n values :: rest)
      (fun _ => f.passed (n + 1 + count) values :: rest) (fun _ => True) := by
  intro hs c hc
  refine tracks_step hc hn (Nat.le_succ fuel) fun m hm => ?_
  have hskip := hm.skip count
  exact tracks_ok m (.refl _) hs.spent trivial (by simpa using hskip)

/-! ## Conditionals and reactions -/

/-- A pass of a finished tree: the code is that of the tree, and what the pass starts with names
nothing outside the tree. -/
structure Prepared (p : Program) (pass : Pass) : Prop where
  wellFormed : p.tree.WellFormed
  code : p.code = Code.ofTree p.tree
  pass : pass.Holds (Handle.InTree p.tree)

/-- Where the code of a node comes next over the scene, the machine does what `eval` does with the
node. -/
def Evaluates (r : Recall) (p : Program) (pass : Pass) (fuel : Nat) (eval : NodeId → Direct Value)
    (current : EvaluationId) (rest : List Frame) (node : NodeId) (s : Scene) : Prop :=
  ∀ f, f.Runs (p.tree.code node) → f.evaluation = current →
    Follows r p pass fuel (eval node) s (f :: rest)
      (fun v => f.passed (p.tree.code node).length [v] :: rest)
      (fun v => v.Holds (Handle.InTree p.tree))

/-- What comes after the check of a reaction. -/
def afterCheck (f : Frame) (skipped : Nat) : Option Value → Frame
  | none => f.passed 1 []
  | some _ => f.passed (1 + (skipped + 1)) []

theorem previousOf_follows (hp : Prepared p pass) {initial condition next : NodeId}
    (hnode : p.tree.construct node = .reaction initial condition next)
    (hn : f.next? = some (.check node)) :
    Follows r p pass fuel (previousOf p pass f.evaluation node) s (f :: rest)
      (fun o => afterCheck f (p.tree.code initial).length o :: rest)
      (fun o => ∀ v, o = some v →
        pass.reactions.lookup node = some v ∧ v.Holds (Handle.InTree p.tree)) := by
  intro hs c hc
  refine tracks_step hc hn (Nat.le_succ fuel) fun m hm => ?_
  simp only [Machine.execute]
  unfold previousOf Machine.checkReaction
  rw [runFrom_bind_ok runFrom_spend]
  have hl : p.code.length initial = (p.tree.code initial).length := by
    rw [hp.code, Code.length_ofTree]
  cases hprev : pass.reactions.lookup node with
  | none =>
    simp only [Scene.world_pass, hprev]
    exact tracks_ok m (.refl _) hs.spent nofun hm
  | some previous =>
    have hv := hp.pass.reactions _ (Keyed.mem_of_lookup hprev)
    simp only [Scene.world_pass, Scene.world_tree, Scene.world_program, hprev, hnode, hl]
    have hsome : ∀ v, some previous = some v →
        some previous = some v ∧ v.Holds (Handle.InTree p.tree) := by
      rintro v h
      cases h
      exact ⟨rfl, hv⟩
    cases Machine.boundName? p.tree node with
    | none =>
      refine tracks_ok m (.refl _) hs.spent hsome ?_
      simpa [afterCheck] using hm.skip ((p.tree.code initial).length + 1)
    | some name =>
      refine tracks_ok m (Scene.grows_bind _ _ _ _) (hs.spent.bind _ _ hv) hsome ?_
      simpa [afterCheck] using (hm.bind name previous).skip ((p.tree.code initial).length + 1)

theorem conditional_follows {eval : NodeId → Direct Value} {condition yes no : NodeId}
    (hnode : p.tree.construct node = .conditional condition yes no)
    (hev : ∀ child s', Before p pass eval f.evaluation node s child s' →
      Evaluates r p pass fuel eval f.evaluation rest child s')
    (hr : f.Runs (p.tree.innerCode p.tree.code node)) :
    Follows r p pass fuel (operandsOf p pass eval f.evaluation node) s (f :: rest)
      (fun ops => f.passed (p.tree.innerCode p.tree.code node).length ops.reverse :: rest)
      (fun ops => ops.length = 1 ∧ ∀ v ∈ ops, v.Holds (Handle.InTree p.tree)) := by
  have hcode : p.tree.innerCode p.tree.code node = p.tree.code condition ++
      .jumpIf node ((p.tree.code yes).length + 1) false :: p.tree.code yes ++
      .jump node (p.tree.code no).length :: p.tree.code no := by
    rw [Tree.innerCode, hnode]
  rw [hcode] at hr ⊢
  unfold operandsOf
  rw [hnode]
  generalize hC : p.tree.code condition = C at hr ⊢
  generalize hY : p.tree.code yes = Y at hr ⊢
  generalize hN : p.tree.code no = N at hr ⊢
  have hjumpIf := hr.part C [.jumpIf node (Y.length + 1) false] (Y ++ .jump node N.length :: N)
    (by simp) rfl
  have hyes := hr.part (C ++ [.jumpIf node (Y.length + 1) false]) Y (.jump node N.length :: N)
    (n := C.length + 1) (by simp) (by simp)
  have hjump := hr.part (C ++ .jumpIf node (Y.length + 1) false :: Y) [.jump node N.length] N
    (n := C.length + 1 + Y.length) (by simp) (by simp; omega)
  have hno := hr.part (C ++ .jumpIf node (Y.length + 1) false :: Y ++ [.jump node N.length]) N []
    (n := C.length + 1 + (Y.length + 1)) (by simp) (by simp; omega)
  refine (hev condition s (.condition hnode) f (hC ▸ hr.left.left) rfl).bind fun v s1 hv1 _ hv => ?_
  rw [hC]
  refine (decision_follows (hjumpIf [v]).next?).bind fun b s2 hb _ _ => ?_
  have hchoice : Before p pass eval f.evaluation node s (if b then yes else no) s2 :=
    .choice hnode hv1 hb
  have hk : keptValues p pass node = [] := by simp [keptValues, Machine.isReaction, hnode]
  cases b with
  | true =>
    refine (hev yes s2 hchoice (f.passed (C.length + 1) []) (hY ▸ hyes []) rfl).bind
      fun v s3 _ _ hv => ?_
    simp only [hY, Frame.passed_passed, List.append_nil]
    refine (jump_follows (hjump [v]).next?).bind fun _ s4 _ _ _ => ?_
    exact follows_pure ⟨rfl, by simpa using hv⟩
      (congrArg (fun n => f.passed n [v] :: rest) (by simp; omega))
  | false =>
    simp only [Bool.false_eq_true, if_false, hk]
    refine (hev no s2 hchoice (f.passed (C.length + 1 + (Y.length + 1)) [])
      (hN ▸ hno []) rfl).bind fun v s3 _ _ hv => ?_
    simp only [hN, Frame.passed_passed, List.append_nil]
    exact follows_pure ⟨rfl, by simpa using hv⟩
      (congrArg (fun n => f.passed n [v] :: rest) (by simp; omega))

theorem reaction_follows (hp : Prepared p pass) {eval : NodeId → Direct Value}
    {initial condition next : NodeId}
    (hnode : p.tree.construct node = .reaction initial condition next)
    (hev : ∀ child s', Before p pass eval f.evaluation node s child s' →
      Evaluates r p pass fuel eval f.evaluation rest child s')
    (hr : f.Runs (p.tree.innerCode p.tree.code node)) :
    Follows r p pass fuel (operandsOf p pass eval f.evaluation node) s (f :: rest)
      (fun ops => f.passed (p.tree.innerCode p.tree.code node).length ops.reverse :: rest)
      (fun ops => ops.length = 1 ∧ ∀ v ∈ ops, v.Holds (Handle.InTree p.tree)) := by
  have hcode : p.tree.innerCode p.tree.code node = .check node :: p.tree.code initial ++
      .jump node ((p.tree.code condition).length + 1 + (p.tree.code next).length) ::
        p.tree.code condition ++
      .jumpIf node (p.tree.code next).length false :: p.tree.code next := by
    rw [Tree.innerCode, hnode]
  rw [hcode] at hr ⊢
  unfold operandsOf
  rw [hnode]
  generalize hI : p.tree.code initial = I at hr ⊢
  generalize hC : p.tree.code condition = C at hr ⊢
  generalize hN : p.tree.code next = N at hr ⊢
  have hinit := hr.part [.check node] I
    (.jump node (C.length + 1 + N.length) :: C ++ .jumpIf node N.length false :: N)
    (n := 1) (by simp) rfl
  have hjump := hr.part (.check node :: I) [.jump node (C.length + 1 + N.length)]
    (C ++ .jumpIf node N.length false :: N) (n := 1 + I.length) (by simp) (by simp; omega)
  have hcond := hr.part (.check node :: I ++ [.jump node (C.length + 1 + N.length)]) C
    (.jumpIf node N.length false :: N) (n := 1 + (I.length + 1)) (by simp) (by simp; omega)
  have hjumpIf := hr.part (.check node :: I ++ .jump node (C.length + 1 + N.length) :: C)
    [.jumpIf node N.length false] N (n := 1 + (I.length + 1) + C.length) (by simp)
    (by simp; omega)
  have hnext := hr.part
    (.check node :: I ++ .jump node (C.length + 1 + N.length) :: C ++ [.jumpIf node N.length false])
    N [] (n := 1 + (I.length + 1) + C.length + 1) (by simp) (by simp; omega)
  refine (previousOf_follows hp hnode hr.next?).bind fun o s1 ho1 _ ho => ?_
  rw [hI]
  cases o with
  | none =>
    refine (hev initial s1 (.initial hnode ho1) (f.passed 1 []) (hI ▸ hinit []) rfl).bind
      fun v s2 _ _ hv => ?_
    simp only [hI, Frame.passed_passed, List.append_nil]
    refine (jump_follows (hjump [v]).next?).bind fun _ s3 _ _ _ => ?_
    exact follows_pure ⟨rfl, by simpa using hv⟩
      (congrArg (fun n => f.passed n [v] :: rest) (by simp; omega))
  | some previous =>
    obtain ⟨hprev, hpv⟩ := ho previous rfl
    have hk : keptValues p pass node = [previous] := by
      simp [keptValues, Machine.isReaction, hnode, hprev]
    refine (hev condition s1 (.again hnode ho1) (f.passed (1 + (I.length + 1)) []) (hC ▸ hcond [])
      rfl).bind fun v s2 hv1 _ _ => ?_
    simp only [hC, Frame.passed_passed, List.append_nil]
    refine (decision_follows (hjumpIf [v]).next?).bind fun b s3 hb _ _ => ?_
    cases b with
    | true =>
      refine (hev next s3 (.next hnode ho1 hv1 hb) (f.passed (1 + (I.length + 1) + C.length + 1) [])
        (hN ▸ hnext []) rfl).bind fun v s4 _ _ hv => ?_
      simp only [hN, Frame.passed_passed, List.append_nil]
      exact follows_pure ⟨rfl, by simpa using hv⟩
        (congrArg (fun n => f.passed n [v] :: rest) (by simp; omega))
    | false =>
      simp only [Bool.false_eq_true, if_false, hk]
      exact follows_pure ⟨rfl, by simpa using hpv⟩
        (congrArg (fun n => f.passed n [previous] :: rest) (by simp; omega))

/-! ## Operands -/

/-- The number of values that a node finds when it finishes. A conditional and the program leave
the one value that is there; the others take the values. -/
def Construct.valueCount : Construct → Nat
  | .program _ => 1
  | .conditional _ _ _ => 1
  | construct => construct.operandCount

theorem length_entries (entries : List (NodeId × NodeId)) :
    (entries.flatMap fun e => [e.1, e.2]).length = 2 * entries.length := by
  induction entries with
  | nil => rfl
  | cons e rest ih =>
    rw [List.flatMap_cons, List.length_append, ih, List.length_cons]
    simp
    omega

/-- The children's values come from their code, one after the other, or from the chosen ones. -/
theorem operandsOf_follows (hp : Prepared p pass) {eval : NodeId → Direct Value}
    (hev : ∀ child s', Before p pass eval f.evaluation node s child s' →
      Evaluates r p pass fuel eval f.evaluation rest child s')
    (hr : f.Runs (p.tree.innerCode p.tree.code node)) :
    Follows r p pass fuel (operandsOf p pass eval f.evaluation node) s (f :: rest)
      (fun ops => f.passed (p.tree.innerCode p.tree.code node).length ops.reverse :: rest)
      (fun ops => ops.length = (p.tree.construct node).valueCount ∧
        ∀ v ∈ ops, v.Holds (Handle.InTree p.tree)) := by
  have hchildren : p.tree.children node = (p.tree.construct node).children := rfl
  cases hnode : p.tree.construct node with
  | conditional condition yes no => exact conditional_follows hnode hev hr
  | reaction initial condition next => exact reaction_follows hp hnode hev hr
  | functionDef | structureDef | conversionDef =>
    unfold Tree.innerCode operandsOf at *
    rw [hnode] at hr ⊢
    exact follows_pure ⟨rfl, nofun⟩ rfl
  | _ =>
    have hscope : p.tree.scopeOf? node = none := by rw [Tree.scopeOf?, hnode]
    rw [hnode] at hchildren
    unfold Tree.innerCode operandsOf at *
    rw [hnode] at hr ⊢
    refine (follows_mapM (fun before child later hsplit vs s' hvs =>
      hev child s' (.part hscope (hchildren.trans hsplit) hvs)) hr).mono
        fun ops h => ⟨h.1.trans ?_, h.2⟩
    first
      | rfl
      | exact length_entries _

end ReactiveLang
