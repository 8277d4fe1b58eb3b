import ReactiveLang.Proofs.Eval.Reusing

/-!
# What a pass takes from the pass before

A pass remembers what nodes come to when it evaluates everything (`Recomputes`,
`Reuses.recomputes`). The next pass takes such a value for a node whose sources are calm, so it takes
what the node would give (`Inherits.reuses`): before each statement, the names that depend on calm
sources only have the values that they had in the pass before.
-/

namespace ReactiveLang.Direct

open Analysis Pairing

theorem mem_topLevel {p : Program} {before later : List NodeId} {statement : NodeId}
    (hs : p.tree.topLevel = before ++ statement :: later) :
    statement ∈ p.analysis.tree.topLevel := by
  show statement ∈ p.tree.topLevel
  rw [hs]
  simp

variable {p : Program} {pass pass' : Pass} {reuse : NodeId → Option Value} {streams : Streams}

/-! ## What is remembered -/

/-- Evaluating everything, the pass comes to the value at a node, in a scene that it gets to after the
statements before; there are no more streams then than it has begun with. -/
inductive Recomputes (p : Program) (pass : Pass) (streams : Streams) (node : NodeId) (v : Value) :
    Prop where
  | intro {before later : List NodeId} {statement : NodeId} {fuel fuel' : Nat} {vs : List Value}
      {s0 s s' : Scene} {e0 e : Evaluation}
      (split : p.tree.topLevel = before ++ statement :: later)
      (within : p.analysis.Within statement node)
      (first : (before.mapM (afresh p pass fuel)).runFrom (.entered p streams) = some (.ok vs, s0))
      (room0 : s0.streams.size ≤ streams.size)
      (found0 : s0.evaluations.find? .root = some e0)
      (begun : 0 < s.evaluations.size)
      (found : s.evaluations.find? .root = some e)
      (ofProgram : e.OfProgram p.analysis)
      (names : ∀ name u, e.get? name = some u →
        e0.get? name = some u ∨ p.analysis.Rebinds statement name)
      (regular : s.streams.Regular)
      (alike : streams.Alike s.streams pass.number)
      (evaluated : (afresh p pass fuel' node).runFrom s = some (.ok v, s'))
      (room : s'.streams.size ≤ streams.size)

section
variable {known : List NodeId → Evaluation → Prop} (w : p.tree.WellFormed) (h : p.analysis.Plain)
  (R : Reuses p pass reuse streams known) (hkept : ∀ e ∈ pass.reactions, e.2.Holds Handle.Plain)
include w h R hkept

/-- What is remembered of a node is what the pass comes to when it evaluates everything. -/
theorem Reuses.recomputes (hr : streams.Regular) {size : Nat} (hsize : size ≤ streams.size)
    {node : NodeId} {v : Value} (hne : node ≠ p.tree.root) (hne' : node ≠ p.tree.programBlock)
    (hv : (recallOf p pass reuse streams).allows size node v) : Recomputes p pass streams node v := by
  obtain ⟨fuel, s, s1, hvisits, hrun, hroom⟩ := hv
  obtain ⟨hroot, -⟩ | ⟨hblock, -⟩ | ⟨statement, s0, hfollows, hd⟩ := hvisits.cases w h
  · exact absurd hroot hne
  · exact absurd hblock hne'
  obtain ⟨before, later, fuel0, vs, hsplit, hbefore⟩ := hfollows
  have htop := mem_topLevel hsplit
  -- the same statements and the same node, with nothing to take
  obtain ⟨s0', ⟨k0, hk0⟩, -, hm0⟩ :=
    (R.statements w h hkept hr fuel0 hsplit).ok vs s0 hbefore trivial
  obtain ⟨s', hm⟩ := R.descends w h hkept hsplit hm0 hd
  obtain ⟨s1', ⟨k, hk⟩, -, hm1⟩ :=
    (R.node w h hkept hsplit (hd.within w htop) fuel hm).ok v s1 hrun trivial
  obtain ⟨e0, e0', he0, he0', R0⟩ := hm0.roots
  obtain ⟨e, e', he, he', R1⟩ := hm.roots
  obtain rfl : e0 = e0' := R0.same trivial
  obtain rfl : e = e' := R1.same trivial
  -- there are no new streams on the way
  have hearlier := keeps_mapM (fun node _ => keeps_evaluate_all _ _ _ _ node) _ _ _ hbefore
  have hsteady := hd.steady w htop h
  have hnode := keeps_evaluate_all _ _ _ _ _ _ _ _ hrun
  have hle0 := (hearlier.grown pass.number).size_le
  have hle := (hsteady.grown pass.number).size_le
  have hle1 := (hnode.grown pass.number).size_le
  have hentered : (Scene.entered p streams).streams.size = streams.size := rfl
  have hsame0 : s0'.streams.size = s0.streams.size := hm0.streams.2.1.size
  have hsame1 : s1'.streams.size = s1.streams.size := hm1.streams.2.1.size
  obtain ⟨e1, he1, hgains⟩ := hsteady.own e0 hm0.begun he0
  obtain rfl : e1 = e := Option.some.inj (he1.symm.trans he)
  have halike : streams.Alike s.streams pass.number :=
    (hearlier.alike (by omega) pass.number).trans (hsteady.alike (by omega) pass.number)
  refine .intro hsplit (hd.within w htop) (hk0 k0 (Nat.le_refl k0)) (by omega) he0' hm.begun' he'
    R1.right (fun name u hu => hgains.get?_cases hu) hm.streams.2.2.2
    (halike.trans hm.streams.2.1) (hk k (Nat.le_refl k)) (by omega)

end

/-! ## Statements with nothing to take -/

theorem runFrom_snoc {f : NodeId → Direct Value} {before : List NodeId} {statement : NodeId}
    {vs : List Value} {s s2 : Scene}
    (h : ((before ++ [statement]).mapM f).runFrom s = some (.ok vs, s2)) :
    ∃ vs0 s1 v, (before.mapM f).runFrom s = some (.ok vs0, s1) ∧
      (f statement).runFrom s1 = some (.ok v, s2) := by
  rw [List.mapM_append, runFrom_bind] at h
  split at h
  · cases h
  · cases h
  · rename_i vs0 s1 h0
    rw [List.mapM_cons, bind_assoc, runFrom_bind] at h
    split at h
    · cases h
    · cases h
    · rename_i v s1' h1
      cases h
      exact ⟨vs0, s1, v, h0, h1⟩

variable (p pass streams) in
/-- A pass that takes nothing takes nothing wrong. -/
theorem reuses_none : Reuses p pass (fun _ => none) streams fun _ _ => True where
  start := trivial
  gains := fun _ _ _ _ => trivial
  next := fun _ _ _ _ _ => trivial
  reused := fun _ h => nomatch h

section
variable (w : p.tree.WellFormed) (h : p.analysis.Plain)
  (hkept : ∀ e ∈ pass.reactions, e.2.Holds Handle.Plain) (hr : streams.Regular)
  {before later : List NodeId} (hs : p.tree.topLevel = before ++ later) {fuel : Nat}
  {vs : List Value} {s : Scene}
  (hrun : (before.mapM (afresh p pass fuel)).runFrom (.entered p streams) = some (.ok vs, s))
include w h hkept hr hs hrun

/-- Statements leave the program's own evaluation with their names, and all streams if there are no
new ones. -/
theorem statements_leave (hroom : s.streams.size ≤ streams.size) :
    0 < s.evaluations.size ∧ s.streams.Regular ∧ streams.Alike s.streams pass.number ∧
      ∃ e, s.evaluations.find? .root = some e ∧ e.OfProgram p.analysis ∧
        ∀ name v, e.get? name = some v → ∃ statement ∈ before,
          p.tree.nameOf? statement = some name := by
  have htop : ∀ statement ∈ before, statement ∈ p.tree.topLevel := fun statement hm => by
    rw [hs]
    exact List.mem_append_left _ hm
  obtain ⟨s', -, -, hm⟩ :=
    ((reuses_none p pass streams).statements w h hkept hr fuel hs).ok vs s hrun trivial
  obtain ⟨e, e', he, -, R⟩ := hm.roots
  have hnames : Names p.tree (fun node => ∃ statement ∈ before, p.analysis.Within statement node)
      (fun name => ∃ statement ∈ before, p.tree.nameOf? statement = some name) :=
    ⟨fun ⟨statement, hm, hw⟩ hscope hc =>
        ⟨statement, hm, (names_within w h (htop statement hm)).child hw hscope hc⟩,
      fun ⟨statement, hm, hw⟩ hn =>
        ⟨statement, hm, (names_within w h (htop statement hm)).defined hw hn⟩,
      fun ⟨statement, hm, hw⟩ hc hn =>
        ⟨statement, hm, (names_within w h (htop statement hm)).bound hw hc hn⟩⟩
  have hsteady := keeps_mapM (fun node hn => keeps_evaluate p pass hnames (fun _ => none) fuel 1
    .root ⟨node, hn, within_self w (htop node hn)⟩) _ _ _ hrun
  have hsize : s.streams.size = streams.size :=
    Nat.le_antisymm hroom (hsteady.grown pass.number).size_le
  refine ⟨hm.begun, hm.streams.1, hsteady.alike hsize pass.number, e, he, R.left,
    fun name v hv => ?_⟩
  obtain ⟨e1, he1, hgains⟩ := hsteady.own _ Nat.one_pos (Scene.find?_entered p streams)
  obtain rfl : e1 = e := Option.some.inj (he1.symm.trans he)
  exact (hgains.get?_cases hv).resolve_left (by rw [Evaluation.get?_start]; nofun)

end

/-! ## What is inherited -/

/-- The evaluation has the values that the statements give in the pass before, when everything is
evaluated there, to names that depend on calm sources only. -/
def Inherits (p : Program) (pass pass' : Pass) (streams : Streams) (statements : List NodeId)
    (e' : Evaluation) : Prop :=
  ∀ fuel vs s e, (statements.mapM (afresh p pass fuel)).runFrom (.entered p streams) =
      some (.ok vs, s) → s.streams.size ≤ streams.size → s.evaluations.find? .root = some e →
    ∀ name v, p.analysis.FairName (Calm p pass') name → e.get? name = some v →
      v.Holds (Handle.Simple (Known p pass' streams)) ∧ e'.get? name = some v

section
variable {streams' : Streams} {before later : List NodeId} {statement : NodeId}
  {reuse' : NodeId → Option Value} {t s s' s1 : Scene} {e e' : Evaluation}

theorem inherits_nil : Inherits p pass pass' streams [] e' := by
  intro fuel vs s e hrun _ he name v _ hv
  rw [List.mapM_nil] at hrun
  cases hrun
  rw [Scene.find?_entered] at he
  cases he
  cases hv

/-- In the next pass a node comes to what it comes to in the pass before, if its sources are calm and
so are those of the names that both have. -/
theorem evaluate_renewed (w : p.tree.WellFormed) (h : p.analysis.Plain)
    (hrenews : Streams.Renews (Calm p pass') pass.number pass'.number streams streams')
    {node : NodeId} {v : Value} {fuel : Nat} {root : Evaluation → Prop}
    (hreach : p.tree.Reaches node) (hhome : p.tree.home node = p.tree.root)
    (hfair : p.analysis.Fair (Calm p pass') node)
    (hbegun : 0 < s.evaluations.size) (hregular : s.streams.Regular)
    (halike : streams.Alike s.streams pass.number) (he : s.evaluations.find? .root = some e)
    (hofProgram : e.OfProgram p.analysis) (hm : Beside p pass' reuse' streams' root t s')
    (hagree : ∀ e', root e' → ∀ name v, p.analysis.FairName (Calm p pass') name →
      e.get? name = some v →
        v.Holds (Handle.Simple (Known p pass' streams)) ∧ e'.get? name = some v)
    (hrun : (afresh p pass fuel node).runFrom s = some (.ok v, s1))
    (hroom : s1.streams.size ≤ streams.size) :
    ∃ s1', Eventually (fun k => afresh p pass' k node) s' (.ok v, s1') ∧
      v.Holds (Handle.Simple (Known p pass' streams)) ∧ p.analysis.Typed node v ∧
        (renewing p pass pass' streams s'.streams s'.reactions).Meets .root .root s1 s1' := by
  obtain ⟨_, e', _, he', R⟩ := hm.roots
  have hmeets : (renewing p pass pass' streams s'.streams s'.reactions).Meets .root .root s s' :=
    ⟨hbegun, hm.begun', ⟨hregular, halike, .refl _ _⟩, rfl,
      ⟨e, e', he, he', hofProgram, R.right, hagree e' R.root, False.elim, trivial⟩, .program rfl rfl⟩
  have L : (renewing p pass pass' streams s'.streams s'.reactions).Laws :=
    renewing_laws (hrenews.extends hm.streams.2.2.1)
  have hfits : (renewing p pass pass' streams s'.streams s'.reactions).Fits .root node :=
    ⟨hreach, hfair, ⟨fun _ => hhome, fun _ => rfl⟩, fun _ => trivial⟩
  obtain ⟨s1', hy, hpost, hm1⟩ :=
    (evaluate_matches h w L fuel Nat.one_pos (fun _ => rfl) hfits hmeets).ok v s1 hrun hroom
  exact ⟨s1', hy, hpost.1, hpost.2, hm1⟩

section
variable (w : p.tree.WellFormed) (h : p.analysis.Plain)
  (hkept : ∀ e ∈ pass.reactions, e.2.Holds Handle.Plain) (hr : streams.Regular)
  (hs : p.tree.topLevel = before ++ statement :: later)
include w h hkept hr hs

/-- A statement gives a name that none of those before gives. -/
theorem Inherits.gains (hd : p.tree.topLevel.Nodup) {name : String} (v : Value)
    (hi : Inherits p pass pass' streams before e')
    (hn : p.tree.nameOf? statement = some name) :
    Inherits p pass pass' streams before (e'.bind name v) := by
  intro fuel vs s e hrun hroom he other u hfair hu
  obtain ⟨hsimple, hget⟩ := hi fuel vs s e hrun hroom he other u hfair hu
  obtain ⟨-, -, -, e0, he0, -, hnames⟩ := statements_leave w h hkept hr hs hrun hroom
  obtain rfl := Option.some.inj (he0.symm.trans he)
  obtain ⟨other', hmem, hname⟩ := hnames other u hu
  refine ⟨hsimple, (Evaluation.get?_bind ..).trans ((if_neg ?_).trans hget)⟩
  rintro rfl
  have htop := mem_topLevel hs
  have htop' : other' ∈ p.tree.topLevel := by rw [hs]; simp [hmem]
  have hsome : (p.analysis.tree.nameOf? statement).isSome = true :=
    Option.isSome_iff_exists.2 ⟨other, hn⟩
  have hsame : other' = statement := h.names statement htop hsome other'
    (w.mem_reachable (topLevel_home w htop').1) (hname.trans hn.symm)
  rw [hs] at hd
  exact List.disjoint_of_nodup_append hd hmem (hsame ▸ List.mem_cons_self)

/-- With the next statement the evaluation has also got the value of that one. -/
theorem Inherits.next
    (hrenews : Streams.Renews (Calm p pass') pass.number pass'.number streams streams')
    (hm : Beside p pass' reuse' streams' (Inherits p pass pass' streams before) t s') {v : Value}
    (hy : Eventually (fun k => afresh p pass' k statement) s' (.ok v, s1))
    (he1 : s1.evaluations.find? .root = some e')
    (hi : Inherits p pass pass' streams before e') :
    Inherits p pass pass' streams (before ++ [statement]) e' := by
  intro fuel vs s2 e2 hrun hroom he2 name u hfair hu
  have htop := mem_topLevel hs
  obtain ⟨vs0, s0, v0, hrun0, hrun1⟩ := runFrom_snoc hrun
  have hsteady := keeps_evaluate p pass (names_within w h htop) (fun _ => none) fuel 1 .root
    (within_self w htop) _ _ _ hrun1
  have hroom0 := Nat.le_trans (hsteady.grown 0).size_le hroom
  obtain ⟨hbegun, hregular, halike, e0, he0, hofProgram, -⟩ :=
    statements_leave w h hkept hr hs hrun0 hroom0
  by_cases hstatement : p.analysis.Fair (Calm p pass') statement
  · obtain ⟨s1', hy', -, -, hm1⟩ := evaluate_renewed w h hrenews (topLevel_home w htop).1
      (topLevel_home w htop).2 hstatement hbegun hregular halike he0 hofProgram hm
      (fun e' hi name v => hi fuel vs0 s0 e0 hrun0 hroom0 he0 name v) hrun1 hroom
    cases hy.unique hy'
    obtain ⟨e3, e3', he3, he3', R⟩ := hm1.roots
    obtain rfl := Option.some.inj (he3.symm.trans he2)
    obtain rfl := Option.some.inj (he3'.symm.trans he1)
    exact R.agree name u hfair hu
  · -- then the name is none of the statement's
    obtain ⟨e3, he3, hgains⟩ := hsteady.own e0 hbegun he0
    obtain rfl := Option.some.inj (he3.symm.trans he2)
    obtain hu | hname := hgains.get?_cases hu
    · exact hi fuel vs0 s0 e0 hrun0 hroom0 he0 name u hfair hu
    · exact absurd (hfair statement htop hname) hstatement

omit hkept hr in
/-- A value that the pass before has come to is what the node comes to, and there is nothing else
that evaluating it would leave. -/
theorem Inherits.reused
    (hrenews : Streams.Renews (Calm p pass') pass.number pass'.number streams streams')
    (hd : p.tree.topLevel.Nodup) {node : NodeId} {v : Value}
    (hv : Recomputes p pass streams node v) (hfair : p.analysis.Fair (Calm p pass') node)
    (hmemoizable : p.analysis.isMemoizable node = true) (hw : p.analysis.Within statement node)
    (hm : Beside p pass' reuse' streams' (Inherits p pass pass' streams before) t s') :
    ∃ s1, Eventually (fun k => afresh p pass' k node) s' (.ok v, s1) ∧ v.Holds Handle.Plain ∧
      p.analysis.Typed node v ∧
        Beside p pass' reuse' streams' (Inherits p pass pass' streams before) t s1 := by
  have htop := mem_topLevel hs
  obtain ⟨hsplit, hw', hfirst, hroom0, he0, hbegun, he, hofProgram, hnames, hregular, halike, hrun,
    hroom⟩ := hv
  -- the value is one of the same statement, after the same ones
  rename_i before' later' statement' fuel fuel' vs s0 s2 s2' e0 e2
  obtain rfl := hw.unique w hw' htop (mem_topLevel hsplit)
  obtain ⟨hbefore, hlater⟩ : statement ∉ before' ∧ statement ∉ later' := by
    rw [hsplit] at hd
    exact ⟨fun hmem => List.disjoint_of_nodup_append hd hmem List.mem_cons_self,
      (List.nodup_cons.1 hd.of_append_right).1⟩
  obtain ⟨rfl, -, rfl⟩ :=
    (List.append_cons_inj_of_notMem hbefore hlater).1 (hsplit.symm.trans hs)
  have hagree : ∀ e', Inherits p pass pass' streams before' e' → ∀ name u,
      p.analysis.FairName (Calm p pass') name → e2.get? name = some u →
        u.Holds (Handle.Simple (Known p pass' streams)) ∧ e'.get? name = some u := by
    intro e' hi name u hname hu
    obtain hu | hrebinds := hnames name u hu
    · exact hi fuel vs s0 e0 hfirst hroom0 he0 name u hname hu
    · exact absurd hname (hrebinds.not_fair w h htop fun id hc => hc.2)
  obtain ⟨s1, hy, hsimple, htyped, hm1⟩ := evaluate_renewed w h hrenews hw.reaches hw.home hfair
    hbegun hregular halike he hofProgram hm hagree hrun hroom
  refine ⟨s1, hy, hsimple.mono (Handle.Simple.mono fun _ _ => trivial), htyped, ?_⟩
  -- evaluating the node gives no names
  obtain ⟨k, -, hk⟩ := hy.exists_fuel 0
  have hsteady := keeps_evaluate p pass' (names_memoizable w h htop hw hmemoizable)
    (fun _ => none) k 1 .root ⟨hw, .refl⟩ _ _ _ hk
  obtain ⟨e, e', he, he', R⟩ := hm.roots
  obtain ⟨e1, he1, hgains⟩ := hsteady.own e' hm.begun' he'
  obtain rfl := hgains.eq_of_none
  exact ⟨hm.begun, Nat.lt_of_lt_of_le hm.begun' hsteady.size,
    ⟨hm.streams.1, hm.streams.2.1.trans hm1.streams.2.2,
      hm.streams.2.2.1.trans hm1.streams.2.2.there, hsteady.regular hm.streams.2.2.2⟩,
    hm.reactions.trans (Eq.symm hm1.reactions), ⟨e, e1, he, he1, R⟩, .program rfl rfl⟩

end

/-- The next pass takes values rightly, if it takes only those that the pass before has come to and
that depend on calm sources. -/
theorem inherits_reuses (w : p.tree.WellFormed) (h : p.analysis.Plain)
    (hd : p.tree.topLevel.Nodup) (hkept : ∀ e ∈ pass.reactions, e.2.Holds Handle.Plain)
    (hr : streams.Regular)
    (hrenews : Streams.Renews (Calm p pass') pass.number pass'.number streams streams')
    (htaken : ∀ node v, reuse' node = some v → Recomputes p pass streams node v ∧
      p.analysis.Fair (Calm p pass') node ∧ p.analysis.isMemoizable node = true) :
    Reuses p pass' reuse' streams' (Inherits p pass pass' streams) where
  start := inherits_nil
  gains := fun v hs hi hn => hi.gains w h hkept hr hs hd v hn
  next := fun hs hm hy he hi => hi.next w h hkept hr hs hrenews hm hy he
  reused := fun hs hreuse hw _ _ hm => by
    obtain ⟨hv, hfair, hmemoizable⟩ := htaken _ _ hreuse
    exact Inherits.reused w h hs hrenews hd hv hfair hmemoizable hw hm

end

end ReactiveLang.Direct
