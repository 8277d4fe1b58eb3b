import ReactiveLang.Proofs.Eval.Asking

/-!
# Nodes that read calm sources only

A node all of whose sources are calm comes to the same value in both runs of a pair
(`evaluate_matches`): so do its operands (`operandsOf_matches`), and the call that it makes
(`call_matches`), whose nodes are evaluated in evaluations that are the same.

* `Fits`: a node may be evaluated in an evaluation in both runs.
* `Meets.bind`, `Meets.enter`, `Meets.leave`: how the runs go on together.
-/

namespace ReactiveLang.Direct.Pairing

open Analysis

variable {p : Program} {P : Pairing p} {s s' s1 s1' : Scene} {v : Value} {name : String}
  {node : NodeId} {current current' : EvaluationId} {operands : List Value}

variable (P) in
/-- The node may be evaluated there in both runs. -/
structure Fits (current : EvaluationId) (node : NodeId) : Prop where
  reaches : p.tree.Reaches node
  fair : p.analysis.Fair P.calm node
  place : current = .root ↔ p.tree.home node = p.tree.root
  inside : current = .root → P.inside node

variable (P) in
/-- The name may get the value there in both runs. -/
structure Gives (current : EvaluationId) (name : String) (v : Value) : Prop where
  simple : P.Simple v
  program : current = .root → P.allowed name ∧ ∃ statement ∈ p.tree.topLevel,
    p.tree.nameOf? statement = some name ∧ ∀ inputs output body,
      p.tree.construct statement = .functionDef name inputs output body →
        v = .function (.function statement .root)
  call : current ≠ .root → p.analysis.IsLocal name

/-! ## How the runs go on -/

/-- Only evaluations, streams and reactions matter. -/
theorem Meets.congr (hm : P.Meets current current' s s') (he : s1.evaluations = s.evaluations)
    (he' : s1'.evaluations = s'.evaluations) (hs : P.streams s1.streams s1'.streams)
    (hr : P.reactions s1.reactions s1'.reactions) : P.Meets current current' s1 s1' where
  begun := he ▸ hm.begun
  begun' := he' ▸ hm.begun'
  streams := hs
  reactions := hr
  roots := by rw [he, he']; exact hm.roots
  alike := by
    cases hm.alike with
    | program hleft hright => exact .program hleft hright
    | call hleft hright hbegun hbegun' hfound hfound' hcall =>
      exact .call hleft hright (he ▸ hbegun) (he' ▸ hbegun') (he ▸ hfound) (he' ▸ hfound') hcall

theorem Meets.spent (hm : P.Meets current current' s s') :
    P.Meets current current' s.spent s'.spent :=
  hm.congr rfl rfl hm.streams hm.reactions

theorem Meets.called (hm : P.Meets current current' s s') (depth : Nat) (definition : NodeId) :
    P.Meets current current' (s.called depth definition) (s'.called depth definition) :=
  hm.congr rfl rfl hm.streams hm.reactions

/-- A name gets the same value in both runs. -/
theorem Meets.bind (L : P.Laws) (hm : P.Meets current current' s s')
    (hg : P.Gives current name v) :
    P.Meets current current' (s.bind current name v) (s'.bind current' name v) := by
  obtain ⟨e, e', he, he', R⟩ := hm.roots
  have hfind : ∀ (s : Scene) (place id : EvaluationId),
      (s.bind place name v).evaluations.find? id =
        if id = place then (s.evaluations.find? id).map fun e => e.bind name v
        else s.evaluations.find? id := fun _ place id =>
    Evaluations.find?_bind place id name v
  cases hm.alike with
  | program hleft hright =>
    subst hleft hright
    obtain ⟨hallowed, statement, hs, hn, hfunction⟩ := hg.program rfl
    refine ⟨hm.begun, hm.begun', hm.streams, hm.reactions,
      ⟨e.bind name v, e'.bind name v, ?_, ?_, ?_⟩, .program rfl rfl⟩
    · rw [hfind, if_pos rfl, he]
      rfl
    · rw [hfind, if_pos rfl, he']
      rfl
    · refine ⟨R.left.bind hs hn hfunction, R.right.bind hs hn hfunction, fun other u hfair hu => ?_,
        fun hsame => by rw [R.same hsame], L.gains v R.root hallowed⟩
      rw [Evaluation.get?_bind] at hu ⊢
      split at hu
      · rename_i heq
        cases hu
        rw [if_pos heq]
        exact ⟨hg.simple, rfl⟩
      · rename_i hne
        rw [if_neg hne]
        exact R.agree other u hfair hu
  | @call f hleft hright hbegun hbegun' hfound hfound' hcall =>
    refine ⟨hm.begun, hm.begun', hm.streams, hm.reactions, ⟨e, e', ?_, ?_, R⟩,
      .call (e := f.bind name v) hleft hright hbegun hbegun' ?_ ?_
        (hcall.bind (hg.call hleft) hg.simple)⟩
    · rw [hfind, if_neg hleft.symm, he]
    · rw [hfind, if_neg hright.symm, he']
    · rw [hfind, if_pos rfl, hfound]
      rfl
    · rw [hfind, if_pos rfl, hfound']
      rfl

/-- A call begins in both runs. -/
theorem Meets.enter (hm : P.Meets current current' s s') {e : Evaluation}
    (he : e.OfCall p.analysis P.known) :
    P.Meets ⟨s.evaluations.size⟩ ⟨s'.evaluations.size⟩
      { s with evaluations := (s.evaluations.begin e).2 }
      { s' with evaluations := (s'.evaluations.begin e).2 } := by
  obtain ⟨r, r', hr, hr', R⟩ := hm.roots
  have hne : ∀ {es : Evaluations}, 0 < es.size → (⟨es.size⟩ : EvaluationId) ≠ .root := by
    intro es hpos hroot
    exact absurd (congrArg EvaluationId.index hroot) (Nat.ne_of_gt hpos)
  have hfind : ∀ (es : Evaluations) (id : EvaluationId), (es.begin e).2.find? id =
      if id = ⟨es.size⟩ then some e else es.find? id := fun _ id =>
    Evaluations.find?_begin e id
  refine ⟨Nat.lt_succ_of_lt hm.begun, Nat.lt_succ_of_lt hm.begun', hm.streams, hm.reactions,
    ⟨r, r', ?_, ?_, R⟩, .call (hne hm.begun) (hne hm.begun') (Nat.lt_succ_self _)
      (Nat.lt_succ_self _) ?_ ?_ he⟩
  · rw [hfind, if_neg (hne hm.begun).symm, hr]
  · rw [hfind, if_neg (hne hm.begun').symm, hr']
  · rw [hfind, if_pos rfl]
  · rw [hfind, if_pos rfl]

/-- Back from a call, the evaluations that run are what they were. -/
theorem Meets.leave {id id' : EvaluationId} (hm : P.Meets id id' s1 s1')
    (ha : P.Alike current current' s s') (hs : s.Steady (fun _ => False) current s1)
    (hs' : s'.Steady (fun _ => False) current' s1') : P.Meets current current' s1 s1' where
  begun := hm.begun
  begun' := hm.begun'
  streams := hm.streams
  reactions := hm.reactions
  roots := hm.roots
  alike := by
    cases ha with
    | program hleft hright => exact .program hleft hright
    | @call f hleft hright hbegun hbegun' hfound hfound' hcall =>
      obtain ⟨e1, he1, hg⟩ := hs.own f hbegun hfound
      obtain ⟨e1', he1', hg'⟩ := hs'.own f hbegun' hfound'
      obtain rfl := hg.eq_of_none
      obtain rfl := hg'.eq_of_none
      exact .call hleft hright (Nat.lt_of_lt_of_le hbegun hs.size)
        (Nat.lt_of_lt_of_le hbegun' hs'.size) he1 he1' hcall

/-! ## Steps of a node -/

section
variable {depth : Nat} {run : EvaluationId → NodeId → Direct Value}
  {run' : Nat → EvaluationId → NodeId → Direct Value}

/-- A condition comes out the same. -/
theorem decision_matches (L : P.Laws) (hm : P.Meets current current' s s') (hv : P.Simple v) :
    P.Matches (decision p P.left node v) (fun _ => decision p P.right node v) s s'
      fun _ s1 s1' => P.Meets current current' s1 s1' := by
  refine .step runFrom_spend (fun _ => runFrom_spend) (.step runFrom_get (fun _ => runFrom_get) ?_)
  have hseen : (s'.spent.world p P.right).seen v = (s.spent.world p P.left).seen v :=
    seen_eq L hm.spent.streams hv
  rw [hseen]
  cases (s.spent.world p P.left).seen v with
  | boolean b => exact .pure hm.spent
  | _ => exact .throw hm.reactions

section
variable (h : p.analysis.Plain) (w : p.tree.WellFormed) (L : P.Laws)
include w

omit L in
/-- What is evaluated for a node may be evaluated where the node is. -/
theorem Fits.child (hn : Names p.tree P.inside P.allowed) (hfit : P.Fits current node)
    (hs : p.tree.scopeOf? node = none) {child : NodeId} (hc : child ∈ p.tree.children node) :
    P.Fits current child := by
  refine ⟨hfit.reaches.child hc, hfit.fair.child hc, ?_, fun hcurrent =>
    hn.child (hfit.inside hcurrent) hs hc⟩
  rw [w.home_child hfit.reaches hc, if_neg (by simp [hs])]
  exact hfit.place

include h

/-- A node of the program's own scope gives a name there, and another one in a call. -/
theorem gives_named (L : P.Laws) (hfit : P.Fits current node) (ha : P.Apt node (.named name v)) :
    P.Gives current name v := by
  obtain ⟨hv, hn, hfunction, -⟩ := ha
  refine ⟨hv, fun hcurrent => ⟨L.names.defined (hfit.inside hcurrent) hn, node, ?_, hn,
    fun inputs output body => hfunction name inputs output body⟩, fun hcurrent =>
      h.isLocal w hfit.reaches (fun hh => hcurrent (hfit.place.2 hh)) hn⟩
  have hmem := w.mem_reachable hfit.reaches
  unfold Tree.nameOf? at hn
  cases hc : p.tree.construct node with
  | binding =>
    refine h.bindings node hmem ?_ (hfit.place.1 hcurrent)
    rw [Tree.isBinding, show p.analysis.tree.construct node = _ from hc]
  | functionDef | structureDef =>
    refine h.definitions node hmem ?_
    rw [Tree.scopeOf?, show p.analysis.tree.construct node = _ from hc]
    rfl
  | _ =>
    rw [hc] at hn
    cases hn

/-- A reaction may give its name the value of the pass before. -/
theorem gives_previous (L : P.Laws) (hfit : P.Fits current node)
    {initial condition next : NodeId}
    (hc : p.tree.construct node = .reaction initial condition next)
    (hn : Machine.boundName? p.tree node = some name) (hv : P.Simple v) :
    P.Gives current name v := by
  unfold Machine.boundName? at hn
  split at hn
  · rename_i other type value hparent
    cases hn
    obtain ⟨parent, hp, hbinding⟩ := Option.map_eq_some_iff.1 hparent
    obtain ⟨hreach, hchild⟩ := w.parent_reaches hfit.reaches hp
    have hplace : current = .root ↔ p.tree.home parent = p.tree.root := by
      have hhome := w.home_child hreach hchild
      rw [if_neg (by simp [Tree.scopeOf?, hbinding])] at hhome
      rw [← hhome]
      exact hfit.place
    refine ⟨hv, fun hcurrent => ⟨?_, parent, ?_, congrArg Construct.definedName? hbinding, ?_⟩,
      fun hcurrent => h.isLocal w hreach (fun hh => hcurrent (hplace.2 hh))
        (congrArg Construct.definedName? hbinding)⟩
    · exact L.names.bound (hfit.inside hcurrent) hc (by rw [Machine.boundName?, hparent])
    · exact h.bindings parent (w.mem_reachable hreach)
        (by rw [Tree.isBinding, show p.analysis.tree.construct parent = _ from hbinding])
        (hplace.1 hcurrent)
    · intro inputs output body hd
      cases hbinding.symm.trans hd
  · cases hn

/-- The value of a reaction in the pass before is the same, as the passes are. -/
theorem previousOf_matches (L : P.Laws) (hfit : P.Fits current node)
    {initial condition next : NodeId}
    (hc : p.tree.construct node = .reaction initial condition next)
    (hm : P.Meets current current' s s') :
    P.Matches (previousOf p P.left current node) (fun _ => previousOf p P.right current' node) s s'
      fun previous s1 s1' => (∀ v, previous = some v → P.Simple v) ∧
        P.Meets current current' s1 s1' := by
  have hdependent : Machine.isPassDependent p.tree node = true := by
    rw [Machine.isPassDependent, hc]
  have hsame := L.quiet (hfit.fair.source (.reaction hc)) hdependent
  rw [← L.equal hsame]
  refine .step runFrom_spend (fun _ => runFrom_spend) ?_
  cases hlast : P.left.reactions.lookup node with
  | none => exact .pure ⟨by simp, hm.spent⟩
  | some previous =>
    have hprevious := L.kept hsame _ (Keyed.mem_of_lookup hlast)
    have hpost : ∀ v, some previous = some v → P.Simple v := fun v hv => by
      cases hv
      exact hprevious
    cases hname : Machine.boundName? p.tree node with
    | none => exact .step (runFrom_pure _) (fun _ => runFrom_pure _) (.pure ⟨hpost, hm.spent⟩)
    | some name =>
      exact .step (runFrom_modify _) (fun _ => runFrom_modify _)
        (.pure ⟨hpost, hm.spent.bind L (gives_previous h w L hfit hc hname hprevious)⟩)

end

/-! ## Operands -/

/-- What the operands of a node have in common in both runs. -/
structure Operands (P : Pairing p) (node : NodeId) (operands : List Value) : Prop where
  simple : ∀ v ∈ operands, P.Simple v
  called : ∀ function inputs, p.tree.construct node = .call function inputs →
    ∃ v rest, operands = v :: rest ∧ p.analysis.Typed function v

theorem operands_of_single (hv : P.Simple v)
    (hc : ∀ function inputs, p.tree.construct node ≠ .call function inputs) :
    P.Operands node [v] :=
  ⟨fun _ hu => List.mem_singleton.1 hu ▸ hv,
    fun function inputs hn => absurd hn (hc function inputs)⟩

theorem simple_of_forall₂ {nodes : List NodeId} (hall : List.Forall₂
    (fun node v => P.Simple v ∧ p.analysis.Typed node v) nodes operands) :
    ∀ v ∈ operands, P.Simple v := by
  induction hall with
  | nil => exact nofun
  | cons hfirst _ ih => exact List.forall_mem_cons.2 ⟨hfirst.1, ih⟩

section
variable (h : p.analysis.Plain) (w : p.tree.WellFormed) (L : P.Laws)
  {eval : NodeId → Direct Value} {eval' : Nat → NodeId → Direct Value}
  (heval : ∀ child, P.Fits current child → ∀ s s', P.Meets current current' s s' →
    P.Matches (eval child) (fun k => eval' k child) s s' fun v s1 s1' =>
      (P.Simple v ∧ p.analysis.Typed child v) ∧ P.Meets current current' s1 s1')
include L heval

/-- A branch that is taken gives the only operand. -/
theorem branch_matches {child : NodeId} (hfit : P.Fits current child)
    (hc : ∀ function inputs, p.tree.construct node ≠ .call function inputs)
    (hm : P.Meets current current' s s') :
    P.Matches (do let v ← eval child; return [v]) (fun k => do let v ← eval' k child; return [v])
      s s' fun operands s1 s1' => P.Operands node operands ∧ P.Meets current current' s1 s1' :=
  (heval child hfit s s' hm).bind L (fun _ => lasting_pure _) fun _ _ _ _ _ hv =>
    .pure ⟨operands_of_single hv.1.1 hc, hv.2⟩

/-- So does one after which the machine jumps. -/
theorem jumping_branch_matches {child : NodeId} (hfit : P.Fits current child)
    (hc : ∀ function inputs, p.tree.construct node ≠ .call function inputs)
    (hm : P.Meets current current' s s') :
    P.Matches (do let v ← eval child; spend; return [v])
      (fun k => do let v ← eval' k child; spend; return [v])
      s s' fun operands s1 s1' => P.Operands node operands ∧ P.Meets current current' s1 s1' :=
  (heval child hfit s s' hm).bind L (fun _ => lasting_spend.bind fun _ => lasting_pure _)
    fun _ _ _ _ _ hv => .step runFrom_spend (fun _ => runFrom_spend)
      (.pure ⟨operands_of_single hv.1.1 hc, hv.2.spent⟩)

variable (hlasting : ∀ child, Lasting (eval child))
include w hlasting

/-- A conditional has the value of the branch that its condition chooses. -/
theorem operandsOf_conditional {condition yes no : NodeId}
    (hc : p.tree.construct node = .conditional condition yes no) (hfit : P.Fits current node)
    (hm : P.Meets current current' s s') :
    P.Matches (operandsOf p P.left eval current node)
      (fun k => operandsOf p P.right (eval' k) current' node) s s' fun operands s1 s1' =>
        P.Operands node operands ∧ P.Meets current current' s1 s1' := by
  have hscope : p.tree.scopeOf? node = none := by rw [Tree.scopeOf?, hc]
  have hchild : ∀ child ∈ [condition, yes, no], P.Fits current child := fun child hmem =>
    hfit.child w L.names hscope (by rw [Tree.children, hc]; exact hmem)
  have hcall : ∀ function inputs, p.tree.construct node ≠ .call function inputs :=
    fun _ _ hn => by cases hc.symm.trans hn
  have hbranch : ∀ b, Lasting (if b = true then do let v ← eval yes; spend; return [v]
      else do let v ← eval no; return [v]) := fun b => by
    split
    · exact (hlasting yes).bind fun _ => lasting_spend.bind fun _ => lasting_pure _
    · exact (hlasting no).bind fun _ => lasting_pure _
  simp only [operandsOf, hc]
  refine (heval condition (hchild _ (by simp)) s s' hm).bind L
    (fun v => (lasting_decision node v).bind hbranch) fun v s1 s1' _ _ hv => ?_
  refine (decision_matches L hv.2 hv.1.1).bind L hbranch fun b s2 s2' _ _ hm => ?_
  cases b with
  | true => exact jumping_branch_matches L heval (hchild yes (by simp)) hcall hm
  | false => exact branch_matches L heval (hchild no (by simp)) hcall hm

/-- A node for which all children are evaluated has their values, one after the other. -/
theorem operandsOf_children (hfit : P.Fits current node) (hscope : p.tree.scopeOf? node = none)
    (hm : P.Meets current current' s s') :
    P.Matches ((p.tree.construct node).children.mapM eval)
      (fun k => (p.tree.construct node).children.mapM (eval' k)) s s' fun operands s1 s1' =>
        P.Operands node operands ∧ P.Meets current current' s1 s1' := by
  refine (Matches.mapM L (fun child _ => hlasting child)
    (fun child hc => heval child (hfit.child w L.names hscope hc)) hm).mono
      fun operands s1 s1' hpost => ⟨⟨simple_of_forall₂ hpost.1, fun function inputs hc => ?_⟩,
        hpost.2⟩
  have hall := hpost.1
  rw [Tree.children, hc] at hall
  cases hall with
  | cons hfirst _ => exact ⟨_, _, rfl, hfirst.2⟩

include h

/-- A reaction has its first value, the next one, or the value of the pass before. -/
theorem operandsOf_reaction {initial condition next : NodeId}
    (hc : p.tree.construct node = .reaction initial condition next) (hfit : P.Fits current node)
    (hm : P.Meets current current' s s') :
    P.Matches (operandsOf p P.left eval current node)
      (fun k => operandsOf p P.right (eval' k) current' node) s s' fun operands s1 s1' =>
        P.Operands node operands ∧ P.Meets current current' s1 s1' := by
  have hscope : p.tree.scopeOf? node = none := by rw [Tree.scopeOf?, hc]
  have hchild : ∀ child ∈ [initial, condition, next], P.Fits current child := fun child hmem =>
    hfit.child w L.names hscope (by rw [Tree.children, hc]; exact hmem)
  have hcall : ∀ function inputs, p.tree.construct node ≠ .call function inputs :=
    fun _ _ hn => by cases hc.symm.trans hn
  have hbranch : ∀ previous b, Lasting (if b = true then do let v ← eval next; return [v]
      else return [previous]) := fun previous b => by
    split
    · exact (hlasting next).bind fun _ => lasting_pure _
    · exact lasting_pure _
  simp only [operandsOf, hc]
  refine (previousOf_matches h w L hfit hc hm).bind L (fun previous => ?_)
    fun previous s1 s1' _ _ hprevious => ?_
  · split
    · exact (hlasting initial).bind fun _ => lasting_spend.bind fun _ => lasting_pure _
    · exact (hlasting condition).bind fun v => (lasting_decision node v).bind (hbranch _)
  cases previous with
  | none =>
    exact jumping_branch_matches L heval (hchild initial (by simp)) hcall hprevious.2
  | some previous =>
    refine (heval condition (hchild _ (by simp)) s1 s1' hprevious.2).bind L
      (fun v => (lasting_decision node v).bind (hbranch _)) fun v s2 s2' _ _ hv => ?_
    refine (decision_matches L hv.2 hv.1.1).bind L (hbranch _) fun b s3 s3' _ _ hm => ?_
    cases b with
    | true => exact branch_matches L heval (hchild next (by simp)) hcall hm
    | false => exact .pure ⟨operands_of_single (hprevious.1 previous rfl) hcall, hm⟩

/-- If the children of a node come to the same, the node has the same operands. -/
theorem operandsOf_matches (hfit : P.Fits current node) (hm : P.Meets current current' s s') :
    P.Matches (operandsOf p P.left eval current node)
      (fun k => operandsOf p P.right (eval' k) current' node) s s' fun operands s1 s1' =>
        P.Operands node operands ∧ P.Meets current current' s1 s1' := by
  cases hc : p.tree.construct node with
  | conditional condition yes no => exact operandsOf_conditional w L heval hlasting hc hfit hm
  | reaction initial condition next => exact operandsOf_reaction h w L heval hlasting hc hfit hm
  | functionDef | structureDef | conversionDef =>
    simp only [operandsOf, hc]
    exact .pure ⟨⟨by simp, fun _ _ hn => by cases hc.symm.trans hn⟩, hm⟩
  | _ =>
    have hchildren := operandsOf_children w L heval hlasting hfit (by rw [Tree.scopeOf?, hc]) hm
    rw [hc] at hchildren
    simp only [operandsOf, hc]
    exact hchildren

/-- When a child is next in the first run, the second run comes to a scene that looks alike. -/
theorem before_meets (hroom : ∀ n, P.room n) (hfit : P.Fits current node)
    (hm : P.Meets current current' s s') {child : NodeId}
    (hb : Before p P.left eval current node s child s1) :
    ∃ s1', P.Meets current current' s1 s1' := by
  have hchild : p.tree.scopeOf? node = none → ∀ child ∈ (p.tree.construct node).children,
      P.Fits current child := fun hs child hc => hfit.child w L.names hs hc
  cases hb with
  | condition => exact ⟨s', hm⟩
  | choice hnode hv hd =>
    have hfirst := hchild (by rw [Tree.scopeOf?, hnode]) _ (by rw [hnode]; exact List.mem_cons_self)
    obtain ⟨s2', -, hpost, hm2⟩ := (heval _ hfirst s s' hm).ok _ _ hv (hroom _)
    obtain ⟨s3', -, hm3⟩ := (decision_matches L hm2 hpost.1).ok _ _ hd (hroom _)
    exact ⟨s3', hm3⟩
  | initial hnode hp | again hnode hp =>
    obtain ⟨s2', -, -, hm2⟩ := (previousOf_matches h w L hfit hnode hm).ok _ _ hp (hroom _)
    exact ⟨s2', hm2⟩
  | next hnode hp hv hd =>
    have hsecond := hchild (by rw [Tree.scopeOf?, hnode]) _
      (by rw [hnode]; exact List.mem_cons_of_mem _ List.mem_cons_self)
    obtain ⟨s2', -, -, hm2⟩ := (previousOf_matches h w L hfit hnode hm).ok _ _ hp (hroom _)
    obtain ⟨s3', -, hpost, hm3⟩ := (heval _ hsecond _ s2' hm2).ok _ _ hv (hroom _)
    obtain ⟨s4', -, hm4⟩ := (decision_matches L hm3 hpost.1).ok _ _ hd (hroom _)
    exact ⟨s4', hm4⟩
  | part hs hsplit hvs =>
    obtain ⟨s2', -, -, hm2⟩ := (Matches.mapM L (fun child _ => hlasting child)
      (fun child hc => heval child (hfit.child w L.names hs (by rw [hsplit]; simp [hc]))) hm).ok
        _ _ hvs (hroom _)
    exact ⟨s2', hm2⟩

end

/-! ## Calls -/

/-- The nodes of a call may be evaluated in a new evaluation. -/
theorem fits_calledNode (w : p.tree.WellFormed) {definition : NodeId}
    (hr : p.tree.Reaches definition) (hf : p.analysis.Fair P.calm definition)
    (hcurrent : current ≠ .root) {provided : Nat}
    (hn : node ∈ p.tree.calledNodes definition provided) : P.Fits current node := by
  obtain ⟨hs, hc⟩ := Tree.scopeOf?_of_calledNode hn
  have hhome : p.tree.home node = definition := by rw [w.home_child hr hc, if_pos hs]
  have hroot : definition ≠ p.tree.root := by
    rintro rfl
    obtain ⟨block, hb⟩ := w.root
    rw [Tree.scopeOf?, hb] at hs
    cases hs
  exact ⟨hr.child hc, hf.child hc,
    ⟨fun hc => absurd hc hcurrent, fun hh => absurd (hhome.symm.trans hh) hroot⟩,
    fun hc => absurd hc hcurrent⟩

section
variable (h : p.analysis.Plain) (w : p.tree.WellFormed) (L : P.Laws)
  (hkeeps : ∀ id node, Keeps (fun _ => True) id (run id node))
  (hkeeps' : ∀ k id node, Keeps (fun _ => True) id (run' k id node))
  (hrun : ∀ {id id' node}, id ≠ .root → P.Fits id node → ∀ {s s'}, P.Meets id id' s s' →
    P.Matches (run id node) (fun k => run' k id' node) s s' fun v s1 s1' =>
      (P.Simple v ∧ p.analysis.Typed node v) ∧ P.Meets id id' s1 s1')
include h w L hkeeps hkeeps' hrun

/-- In the evaluation of a call that reads calm sources only, all nodes come to the same. -/
theorem enter_matches {c : Call} (hc : P.Apt node (.run c)) (hm : P.Meets current current' s s') :
    P.Matches (enter p P.left run node c) (fun k => enter p P.right (run' k) node c) s s'
      fun v s1 s1' => P.Simple v ∧ P.Meets current current' s1 s1' := by
  obtain ⟨hkind, hclosure, hreach, hfair, hsubject, harguments, -⟩ := hc
  suffices hinner : P.Matches (enter p P.left run node c) (fun k => enter p P.right (run' k) node c)
      s s' fun v s1 s1' => P.Simple v ∧ ∃ id id', P.Meets id id' s1 s1' by
    have hleft : Keeps (fun _ => False) current (enter p P.left run node c) :=
      keeps_enter hkeeps node c
    have hright : ∀ k, Keeps (fun _ => False) current' (enter p P.right (run' k) node c) :=
      fun k => keeps_enter (hkeeps' k) node c
    refine (hinner.steady hleft hright).mono ?_
    rintro v s1 s1' ⟨⟨hv, _, _, hm'⟩, hs, hs'⟩
    exact ⟨hv, hm'.leave hm.alike hs hs'⟩
  unfold enter
  dsimp only
  generalize hinputs : (if c.kind = .conversion then [] else p.tree.inputsOf c.definition) = inputs
  split
  · exact .throw hm.reactions
  have hlocal : ∀ input ∈ inputs, ∀ name, p.tree.nameOf? input = some name →
      p.analysis.IsLocal name := by
    intro input hi name hn
    have hinput : input ∈ p.tree.inputsOf c.definition := by
      subst hinputs
      split at hi
      · cases hi
      · exact hi
    refine h.isLocal w (hreach.input hinput) (fun hroot => ?_) hn
    obtain ⟨block, hb⟩ := w.root
    rw [show c.definition = p.tree.root from (w.input_home hreach hinput).symm.trans hroot,
      Tree.inputsOf, hb] at hinput
    cases hinput
  have hcall := (Evaluation.ofCall_start hkind c.definition hsubject).bindInputs hlocal harguments
  refine .step runFrom_get (fun _ => runFrom_get)
    (.step (runFrom_set _) (fun _ => runFrom_set _) ?_)
  rw [hclosure]
  have hnew : (⟨s.evaluations.size⟩ : EvaluationId) ≠ .root := fun hroot =>
    absurd (congrArg EvaluationId.index hroot) (Nat.ne_of_gt hm.begun)
  refine (Matches.mapM L (fun node _ => (hkeeps _ node).lasting)
    (fun node hn _ _ hm => hrun hnew (fits_calledNode w hreach hfair hnew hn) hm)
    (hm.enter hcall)).bind L
      (fun values => lasting_resultOf _ _ _)
      fun values s1 s1' _ _ hpost => ?_
  refine .step runFrom_get (fun _ => runFrom_get) ?_
  rw [if_neg hkind, if_neg hkind]
  have hlast : P.Simple (values.getLast?.getD .nothing) := by
    cases hl : values.getLast? with
    | none => exact Value.holds_nothing
    | some v => exact simple_of_forall₂ hpost.1 v (List.mem_of_getLast? hl)
  rw [seen_eq L hpost.2.streams hlast]
  exact .pure ⟨seen_simple L hpost.2.streams hlast, _, _, hpost.2⟩

/-- A call comes to the same. -/
theorem call_matches {c : Call} (hc : P.Apt node (.run c)) (hm : P.Meets current current' s s') :
    P.Matches (call p P.left run depth node c) (fun k => call p P.right (run' k) depth node c) s s'
      fun v s1 s1' => P.Simple v ∧ P.Meets current current' s1 s1' := by
  unfold call
  cases Machine.callName p.tree c with
  | error kind => exact .throw hm.reactions
  | ok name =>
    exact .step (runFrom_pure _) (fun _ => runFrom_pure _) (.step (runFrom_modify _)
      (fun _ => runFrom_modify _) (enter_matches h w L hkeeps hkeeps' hrun hc (hm.called depth _)))

/-- With the same operands a node finishes in the same way. -/
theorem finish_matches (hfit : P.Fits current node) (ho : P.Operands node operands)
    (hm : P.Meets current current' s s') :
    P.Matches (finish p P.left run depth current node operands)
      (fun k => finish p P.right (run' k) depth current' node operands) s s' fun v s1 s1' =>
        (P.Simple v ∧ p.analysis.Typed node v) ∧ P.Meets current current' s1 s1' := by
  refine .step runFrom_spend (fun _ => runFrom_spend) (.step runFrom_get (fun _ => runFrom_get) ?_)
  obtain ⟨hok, herror⟩ := outcome_matches h w L hm.spent.streams hfit.reaches hfit.fair hfit.place
    ho.simple ho.called hm.spent
  cases hout : (s.spent.world p P.left).outcome s.spent.evaluations current node operands with
  | error kind =>
    refine ⟨nofun, fun hsame f s1 hx _ => ?_⟩
    cases hx
    refine ⟨s'.spent, ⟨0, fun k _ => ?_⟩, hm.reactions⟩
    rw [herror hsame kind hout]
    rfl
  | ok o =>
    obtain ⟨hout', hapt⟩ := hok o hout
    rw [hout']
    refine .step (runFrom_pure _) (fun _ => runFrom_pure _) ?_
    cases o with
    | keep => exact .pure ⟨⟨World.operand_holds ho.simple 0, hapt _⟩, hm.spent⟩
    | value v => exact .pure ⟨hapt, hm.spent⟩
    | named name v =>
      exact .step (runFrom_set _) (fun _ => runFrom_set _) (.pure ⟨⟨hapt.1, hapt.2.2.2 v⟩,
        hm.spent.bind L (gives_named h w L hfit hapt)⟩)
    | reaction v =>
      obtain ⟨hv, hsame, htyped⟩ := hapt
      exact .step (runFrom_set _) (fun _ => runFrom_set _) (.pure ⟨⟨hv, htyped v⟩,
        hm.spent.congr rfl rfl hm.streams (L.reacted hsame node v hm.reactions)⟩)
    | stream kind inputs =>
      obtain ⟨hcalm, htyped⟩ := hapt
      refine ⟨fun v s1 hx hroom => ?_, fun _ _ _ hx => by cases hx⟩
      cases hx
      obtain ⟨hid, hstreams, hknown⟩ := L.opened kind inputs hm.streams hcalm hroom
      refine ⟨{ s'.spent with streams :=
          (s'.streams.createOrReuse kind node inputs P.right.number p.config).2 },
        ⟨0, fun _ _ => congrArg (fun id => some (Except.ok (Value.stream id), _)) hid⟩,
        ⟨(Value.holds_stream _).2 hknown, htyped _⟩, hm.congr rfl rfl hstreams hm.reactions⟩
    | run c =>
      exact (call_matches h w L hkeeps hkeeps' hrun hapt hm.spent).mono fun v s1 s1' hpost =>
        ⟨⟨hpost.1, hapt.2.2.2.2.2.2 v⟩, hpost.2⟩

end
end

/-! ## Nodes -/

/-- A node whose value is not taken from elsewhere is evaluated. -/
theorem evaluate_succ {pass : Pass} (reuse : NodeId → Option Value) {fuel depth : Nat}
    (h : (if depth = 1 then reuse node else none) = none) :
    evaluate p pass reuse (fuel + 1) depth current node = (do
      spend
      let operands ← operandsOf p pass (evaluate p pass reuse fuel depth current) current node
      finish p pass (evaluate p pass reuse fuel (depth + 1)) depth current node operands) := by
  rw [evaluate, h]

/-- A node that reads calm sources only comes to the same in both runs, with enough fuel for the
second one. -/
theorem evaluate_matches (h : p.analysis.Plain) (w : p.tree.WellFormed) (L : P.Laws)
    (fuel : Nat) {depth : Nat} (hdepth : 0 < depth) (hone : depth = 1 → current = .root)
    (hfit : P.Fits current node) (hm : P.Meets current current' s s') :
    P.Matches (evaluate p P.left P.reuse fuel depth current node)
      (fun k => evaluate p P.right (fun _ => none) k depth current' node) s s' fun v s1 s1' =>
        (P.Simple v ∧ p.analysis.Typed node v) ∧ P.Meets current current' s1 s1' := by
  induction fuel generalizing depth current current' node s s' with
  | zero => exact ⟨fun _ _ hx => (nomatch hx), fun _ _ _ hx => nomatch hx⟩
  | succ fuel ih =>
    cases hreuse : (if depth = 1 then P.reuse node else none) with
    | some v =>
      obtain ⟨rfl, hvalue⟩ := Option.ite_none_right_eq_some.1 hreuse
      obtain rfl := hone rfl
      have hrun : (evaluate p P.left P.reuse (fuel + 1) 1 .root node).runFrom s =
          some (.ok v, s.spent) := by
        rw [evaluate, runFrom_bind_ok runFrom_spend, hreuse]
        rfl
      cases hm.alike with
      | call hleft => exact absurd rfl hleft
      | program _ hright =>
        subst hright
        obtain ⟨s1', hy, hsimple, htyped, hmeets⟩ := L.reused hvalue (hfit.inside rfl) hfit.reaches
          (hfit.place.1 rfl) hm
        refine ⟨fun a s1 hx _ => ?_, fun _ f s1 hx _ => ?_⟩
        · cases hrun.symm.trans hx
          exact ⟨s1', hy, ⟨hsimple, htyped⟩,
            hmeets.congr rfl rfl hmeets.streams hmeets.reactions⟩
        · cases hrun.symm.trans hx
    | none =>
      refine .of_succ ?_
      simp only [evaluate_succ P.reuse hreuse, evaluate_succ (fun _ => none) (ite_self none)]
      refine .step runFrom_spend (fun _ => runFrom_spend) ?_
      refine (operandsOf_matches h w L (fun child hfit s s' hm => ih hdepth hone hfit hm)
        (fun child => lasting_evaluate _ _ _ _ child) hfit hm.spent).bind L
          (fun operands => lasting_finish (fun id node => keeps_evaluate_all _ _ _ id node) _ _ _ _)
          fun operands s1 s1' _ _ hpost => ?_
      have hdeeper : depth + 1 ≠ 1 := Nat.ne_of_gt (Nat.succ_lt_succ hdepth)
      exact finish_matches h w L (fun id node => keeps_evaluate_all _ _ _ id node)
        (fun k id node => keeps_evaluate_all _ _ _ id node)
        (fun _ hfit _ _ hm => ih (Nat.succ_pos _) (fun hone => absurd hone hdeeper) hfit hm)
        hfit hpost.1 hpost.2

end ReactiveLang.Direct.Pairing
