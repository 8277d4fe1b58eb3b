import ReactiveLang.Proofs.Eval.Pairing

/-!
# What a node asks for in two runs

A node all of whose sources are calm asks for the same in both runs of a pair, if its operands are
the same: a name stands for the same value (`Meets.lookup`), `this` is the same (`Meets.this_eq`), and
nothing else that a node looks at can tell the passes apart (`outcome_matches`). What it asks for
reads calm sources only (`Apt`).
-/

namespace ReactiveLang

open Analysis

/-! ## What a node looks at -/

namespace World

variable {w w' : World} {es es' : Evaluations} {current current' : EvaluationId} {node : NodeId}
  {operands : List Value}

/-- A node that no stream and no pass can tell apart does the same with its operands. -/
theorem outcome_like (hprogram : w'.program = w.program)
    (hseen : ∀ v ∈ operands, w'.seen v = w.seen v)
    (hprevious : ∀ count, w'.previousValue (operand operands 0) count =
      w.previousValue (operand operands 0) count)
    (hchanged : ∀ stream, w.tree.construct node = .changed stream →
      w'.pass.changed = w.pass.changed) :
    w'.outcome es current node operands = w.outcome es current node operands := by
  have htree : w'.tree = w.tree := congrArg Program.tree hprogram
  have hraw : ∀ i, w'.seen (operand operands i) = w.seen (operand operands i) := by
    intro i
    unfold operand
    rw [List.getD_eq_getElem?_getD]
    cases hi : operands[i]? with
    | none => rfl
    | some v => exact hseen v (List.mem_of_getElem? hi)
  have hmap : operands.map w'.seen = operands.map w.seen := List.map_congr_left hseen
  have hdrop : (operands.drop 1).map w'.seen = (operands.drop 1).map w.seen :=
    List.map_congr_left fun v hv => hseen v (List.mem_of_mem_drop hv)
  unfold outcome
  rw [htree]
  cases hc : w.tree.construct node with
  | changed stream => simp only [hchanged stream hc]
  | previous => simp only [hraw, hprevious]
  | property => simp only [hraw, property, unboundMember, htree]
  | thisValue => simp only [this, show w'.thisAt? = w.thisAt? by unfold thisAt?; rw [htree]]
  | convert => simp only [hraw, convertOutcome, conversionClosure, htree]
  | binding name type value => cases value <;> rfl
  | _ => simp only [hraw, hmap, hdrop]

theorem outcome_reference {name : String} (hc : w.tree.construct node = .reference name) :
    w.outcome es current node operands = (lookup es current name).map .value := by
  rw [outcome, hc]

theorem outcome_this (hc : w.tree.construct node = .thisValue) :
    w.outcome es current node operands = (w.this es current).map .value := by
  rw [outcome, hc]

/-- Only names, `this` and definitions look at evaluations. -/
theorem outcome_elsewhere (hname : ∀ name, w.tree.construct node ≠ .reference name)
    (hthis : w.tree.construct node ≠ .thisValue)
    (hdefinition : w.tree.scopeOf? node = none ∨ current' = current) :
    w.outcome es' current' node operands = w.outcome es current node operands := by
  unfold outcome
  rw [Tree.scopeOf?] at hdefinition
  cases hc : w.tree.construct node with
  | reference name => exact absurd hc (hname name)
  | thisValue => exact absurd hc hthis
  | functionDef | structureDef | conversionDef =>
    rw [hc] at hdefinition
    obtain hnone | rfl := hdefinition
    · cases hnone
    · rfl
  | binding name type value => cases value <;> rfl
  | _ => rfl

end World

namespace Direct.Pairing

variable {p : Program} {P : Pairing p} {s s' : Scene} {v : Value} {name : String} {node : NodeId}
  {current current' : EvaluationId} {operands : List Value}

section
variable (L : P.Laws) (hs : P.streams s.streams s'.streams)
include L hs

theorem seen_eq (hv : P.Simple v) : (s'.world p P.right).seen v = (s.world p P.left).seen v := by
  cases v with
  | stream id =>
    have hread := L.seen hs ((Value.holds_stream id).1 hv)
    have hlatest : ∀ (ss : Streams) (pass : Nat), ((ss.find? id).bind fun x => x.latestAt? pass) =
        ((ss.find? id).map (·.visible pass)).bind List.getLast? := by
      intro ss pass
      cases ss.find? id with
      | none => rfl
      | some x => exact x.latestAt?_eq pass
    simp only [World.seen, Scene.world, hlatest, hread]
  | _ => rfl

theorem previousValue_eq (hv : P.Simple v) (count : Value) :
    (s'.world p P.right).previousValue v count = (s.world p P.left).previousValue v count := by
  cases v with
  | stream id =>
    have hread := L.seen hs ((Value.holds_stream id).1 hv)
    have hback : ∀ (ss : Streams) (pass back : Nat),
        ((ss.find? id).bind fun x => x.previousAt? back pass) =
          ((ss.find? id).map (·.visible pass)).bind fun values =>
            values[values.length - 1 - back]? := by
      intro ss pass back
      cases ss.find? id <;> rfl
    simp only [World.previousValue, streamHandle, bind, Except.bind, Scene.world, hback, hread]
  | _ => rfl

theorem seen_simple (hv : P.Simple v) : P.Simple ((s.world p P.left).seen v) :=
  World.seen_holds (L.regular hs).holds hv

end

/-! ## Names -/

section
variable (h : p.analysis.Plain) (w : p.tree.WellFormed)
include h w

/-- A name that stands for a statement of the program depends on what the reference reads. -/
theorem fairName (hr : p.tree.Reaches node) (hc : p.tree.construct node = .reference name)
    (hf : p.analysis.Fair P.calm node) : p.analysis.FairName P.calm name :=
  fun _ hs hn => hf.refersTo (h.refersTo w hs hn hr hc)

/-- A name of streams is given to nothing. -/
theorem ofName?_eq_none {statement : NodeId} (hs : statement ∈ p.tree.topLevel)
    (hn : p.tree.nameOf? statement = some name) : StreamKind.ofName? name = none := by
  have hnone := h.streams statement (w.mem_reachable (topLevel_home w hs).1)
  change (p.tree.nameOf? statement).bind StreamKind.ofName? = none at hnone
  rwa [hn] at hnone

/-- What a name of the program's own evaluation stands for. -/
theorem Roots.get? {e e' : Evaluation} (R : P.Roots e e') (hr : p.tree.Reaches node)
    (hc : p.tree.construct node = .reference name) (hf : p.analysis.Fair P.calm node)
    (hv : e.get? name = some v) :
    e'.get? name = some v ∧ P.Simple v ∧ p.analysis.Typed node v := by
  obtain ⟨hsimple, hright⟩ := R.agree name v (fairName h w hr hc hf) hv
  obtain ⟨statement, hs, hn, hfunction⟩ := R.left.names name v hv
  refine ⟨hright, hsimple, ⟨fun other definition inputs output body ho hd hdef => ?_,
    fun other kind ho hkind => ?_, fun _ _ hp => ?_⟩⟩
  · cases hc.symm.trans ho
    have hname : p.tree.nameOf? definition = some name := congrArg Construct.definedName? hdef
    have hsome : (p.analysis.tree.nameOf? statement).isSome = true :=
      Option.isSome_iff_exists.2 ⟨name, hn⟩
    have hsame := h.names statement hs hsome definition (w.mem_reachable (topLevel_home w hd).1)
      (hname.trans hn.symm)
    subst hsame
    exact hfunction inputs output body hdef
  · cases hc.symm.trans ho
    rw [ofName?_eq_none h w hs hn] at hkind
    cases hkind
  · cases hc.symm.trans hp

/-- What a name stands for that the program's own evaluation does not have. -/
theorem Roots.get?_none {e e' : Evaluation} (R : P.Roots e e')
    (hc : p.tree.construct node = .reference name) (hv : e.get? name = none) :
    (∀ kind, StreamKind.ofName? name = some kind →
      e'.get? name = none ∧ p.analysis.Typed node (.function (.stream kind))) ∧
      (P.same → e'.get? name = none) := by
  refine ⟨fun kind hkind => ⟨?_, ⟨fun other definition inputs output body ho hd hdef => ?_,
    fun other kind' ho hkind' => ?_, fun _ _ hp => ?_⟩⟩, fun hsame => R.same hsame ▸ hv⟩
  · cases hv' : e'.get? name with
    | none => rfl
    | some u =>
      obtain ⟨statement, hs, hn, -⟩ := R.right.names name u hv'
      rw [ofName?_eq_none h w hs hn] at hkind
      cases hkind
  · cases hc.symm.trans ho
    have hname : p.tree.nameOf? definition = some name := congrArg Construct.definedName? hdef
    rw [ofName?_eq_none h w hd hname] at hkind
    cases hkind
  · cases hc.symm.trans ho
    cases hkind.symm.trans hkind'
    rfl
  · cases hc.symm.trans hp

/-- A name that a call does not give itself stands for the same in both runs. -/
theorem Roots.lookup {e e' : Evaluation} (R : P.Roots e e') (hr : p.tree.Reaches node)
    (hc : p.tree.construct node = .reference name) (hf : p.analysis.Fair P.calm node)
    {es es' : Evaluations} (hleft : es.resolve current name = e.get? name)
    (hright : es'.resolve current' name = e'.get? name) :
    (∀ v, World.lookup es current name = .ok v →
      World.lookup es' current' name = .ok v ∧ P.Simple v ∧ p.analysis.Typed node v) ∧
      (P.same → ∀ kind, World.lookup es current name = .error kind →
        World.lookup es' current' name = .error kind) := by
  unfold World.lookup
  rw [hleft, hright]
  cases hv : e.get? name with
  | some v =>
    obtain ⟨hv', hsimple, htyped⟩ := R.get? h w hr hc hf hv
    rw [hv']
    refine ⟨fun u hu => ?_, fun _ _ hk => by cases hk⟩
    cases hu
    exact ⟨rfl, hsimple, htyped⟩
  | none =>
    obtain ⟨hstream, hsame⟩ := R.get?_none h w hc hv
    cases hkind : StreamKind.ofName? name with
    | some kind =>
      obtain ⟨hnone, htyped⟩ := hstream kind hkind
      rw [hnone]
      refine ⟨fun u hu => ?_, fun _ _ hk => by cases hk⟩
      cases hu
      exact ⟨rfl, by simp [Callable.handles, Handle.Simple], htyped⟩
    | none =>
      refine ⟨fun u hu => (by cases hu), fun hs kind hk => ?_⟩
      rw [hsame hs]
      exact hk

/-- A name stands for the same in both runs. -/
theorem Meets.lookup (hm : P.Meets current current' s s') (hr : p.tree.Reaches node)
    (hc : p.tree.construct node = .reference name) (hf : p.analysis.Fair P.calm node) :
    (∀ v, World.lookup s.evaluations current name = .ok v →
      World.lookup s'.evaluations current' name = .ok v ∧ P.Simple v ∧ p.analysis.Typed node v) ∧
      (P.same → ∀ kind, World.lookup s.evaluations current name = .error kind →
        World.lookup s'.evaluations current' name = .error kind) := by
  obtain ⟨e, e', he, he', R⟩ := hm.roots
  cases hm.alike with
  | program hleft hright =>
    subst hleft hright
    exact R.lookup h w hr hc hf (Evaluations.resolve_root hm.begun he R.left.closure name)
      (Evaluations.resolve_root hm.begun' he' R.right.closure name)
  | @call f hleft hright hbegun hbegun' hfound hfound' hcall =>
    have hl : s.evaluations.resolve current name = (f.get? name).or (e.get? name) :=
      Evaluations.resolve_call hleft hbegun he R.left.closure hfound hcall.closure name
    have hl' : s'.evaluations.resolve current' name = (f.get? name).or (e'.get? name) :=
      Evaluations.resolve_call hright hbegun' he' R.right.closure hfound' hcall.closure name
    cases hv : f.get? name with
    | none => exact R.lookup h w hr hc hf (by rw [hl, hv]; rfl) (by rw [hl', hv]; rfl)
    | some v =>
      obtain ⟨⟨hlocal, hstream⟩, hsimple⟩ := hcall.names name v hv
      unfold World.lookup
      rw [hl, hl', hv]
      refine ⟨fun u hu => ?_, fun _ => nofun⟩
      cases hu
      refine ⟨rfl, hsimple, ⟨fun other definition inputs output body ho hd hdef => ?_,
        fun other kind ho hkind => ?_, fun _ _ hp => ?_⟩⟩
      · cases hc.symm.trans ho
        have hname : p.tree.nameOf? definition = some name := congrArg Construct.definedName? hdef
        exact absurd hname (hlocal definition hd)
      · cases hc.symm.trans ho
        rw [hstream] at hkind
        cases hkind
      · cases hc.symm.trans hp

end

/-- `this` is the same in both runs: what is converted, if anything is. -/
theorem Meets.this_eq (hm : P.Meets current current' s s') :
    (s'.world p P.right).this s'.evaluations current' =
        (s.world p P.left).this s.evaluations current ∧
      ∀ v, (s.world p P.left).this s.evaluations current = .ok v → P.Simple v := by
  obtain ⟨e, e', he, he', R⟩ := hm.roots
  have hroot : ∀ (w : World) (es : Evaluations) (e : Evaluation), es.find? .root = some e →
      e.OfProgram p.analysis → w.thisAt? es .root = none := by
    intro w es e he ho
    simp only [World.thisAt?, he, ho.subject, ho.kind]
    rfl
  cases hm.alike with
  | program hleft hright =>
    subst hleft hright
    unfold World.this
    rw [Evaluations.chain_root hm.begun he R.left.closure,
      Evaluations.chain_root hm.begun' he' R.right.closure]
    simp only [List.findSome?_cons, List.findSome?_nil, hroot _ _ _ he R.left,
      hroot _ _ _ he' R.right]
    exact ⟨trivial, nofun⟩
  | @call f hleft hright hbegun hbegun' hfound hfound' hcall =>
    have hthis : ∀ (w : World) (es : Evaluations) (id : EvaluationId), es.find? id = some f →
        w.thisAt? es id = f.subject := by
      intro w es id hf
      simp only [World.thisAt?, hf, if_neg hcall.kind]
      cases f.subject <;> rfl
    unfold World.this
    rw [Evaluations.chain_call hleft hbegun he R.left.closure hfound hcall.closure,
      Evaluations.chain_call hright hbegun' he' R.right.closure hfound' hcall.closure]
    simp only [List.findSome?_cons, List.findSome?_nil, hthis _ _ _ hfound, hthis _ _ _ hfound',
      hroot _ _ _ he R.left, hroot _ _ _ he' R.right]
    refine ⟨by cases f.subject <;> trivial, fun v hv => ?_⟩
    cases hsubject : f.subject with
    | none =>
      rw [hsubject] at hv
      cases hv
    | some u =>
      rw [hsubject] at hv
      cases hv
      exact hcall.subject v hsubject

/-! ## What a node asks for -/

variable (P) in
/-- What a node of a plain program asks for depends on calm sources only. -/
def Apt (node : NodeId) : Outcome → Prop
  | .keep => ∀ v, p.analysis.Typed node v
  | .value v => P.Simple v ∧ p.analysis.Typed node v
  | .named name v => P.Simple v ∧ p.tree.nameOf? node = some name ∧
      (∀ other inputs output body, p.tree.construct node = .functionDef other inputs output body →
        v = .function (.function node .root)) ∧ ∀ v, p.analysis.Typed node v
  | .reaction v => P.Simple v ∧ P.same ∧ ∀ v, p.analysis.Typed node v
  | .stream _ _ => P.calm node ∧ ∀ v, p.analysis.Typed node v
  | .run c => c.kind ≠ .structureDef ∧ c.closure = .root ∧ p.tree.Reaches c.definition ∧
      p.analysis.Fair P.calm c.definition ∧ (∀ v, c.subject = some v → P.Simple v) ∧
        (∀ v ∈ c.arguments, P.Simple v) ∧ ∀ v, p.analysis.Typed node v

section
variable (h : p.analysis.Plain) (w : p.tree.WellFormed)
include h w

/-- What a call calls, as the source says it. -/
theorem apt_call {function : NodeId} {inputs : List NodeId} {arguments : List Value} {o : Outcome}
    (hr : p.tree.Reaches node) (hf : p.analysis.Fair P.calm node)
    (hc : p.tree.construct node = .call function inputs) (ht : p.analysis.Typed function v)
    (hv : P.Simple v) (ha : ∀ u ∈ arguments, P.Simple u)
    (ho : World.callOutcome v arguments = .ok o) : P.Apt node o := by
  have htyped : ∀ u, p.analysis.Typed node u := fun u =>
    typed_of_construct (fun name hn => nomatch hc.symm.trans hn)
      fun _ _ hn => nomatch hc.symm.trans hn
  have happ := h.callee_cases w hr hc
  obtain ⟨name, definition, hname, hcallee, hs, ins, output, body, hdef⟩ |
    ⟨name, kind, hname, hcallee, hkind⟩ | ⟨subject, name, hname⟩ := happ
  · rw [ht.function name definition ins output body hname hs hdef] at ho
    cases ho
    exact ⟨nofun, rfl, (topLevel_home w hs).1, hf.refersTo (.function hcallee), nofun, ha, htyped⟩
  · rw [ht.stream name kind hname hkind] at ho
    cases ho
    exact ⟨hf.source (.stream hcallee), htyped⟩
  · obtain ⟨method, receiver, rfl⟩ := ht.property subject name hname
    have hholds := World.callOutcome_holds hv ha ho
    obtain ⟨u, -, ho⟩ := bind_eq_ok ho
    cases ho
    exact ⟨hholds, htyped u⟩

/-- A conversion that a node uses reads no source. -/
theorem apt_convert {expression : NodeId} {type : Annotation} {target : Ty} {o : Outcome}
    {world : World} (hworld : world.program = p) (hr : p.tree.Reaches node)
    (hc : p.tree.construct node = .convert expression type) (hv : P.Simple v)
    (ho : world.convertOutcome node v target = .ok o) : P.Apt node o := by
  subst hworld
  have htyped : ∀ u, world.program.analysis.Typed node u := fun u =>
    typed_of_construct (fun name hn => nomatch hc.symm.trans hn)
      fun _ _ hn => nomatch hc.symm.trans hn
  have hnone : ∀ id e, Evaluations.find? .empty id = some e → e.kind ≠ .structureDef := nofun
  have hholds := World.convertOutcome_holds (h.allows_simple P.known hnone .root node) hv ho
  unfold World.convertOutcome at ho
  split at ho
  · cases ho
    exact ⟨hv, htyped v⟩
  · split at ho
    · cases ho
    · obtain ⟨u, -, ho⟩ := bind_eq_ok ho
      cases ho
      exact ⟨hholds, htyped u⟩
    · rename_i definition type hfound
      cases ho
      -- no instance is simple, so the conversion is none of a structure
      have hplain : ∀ object, v ≠ .instanceOf object := by
        rintro object rfl
        exact ((Value.holds_instanceOf object).1 hv).1
      have hreach : world.tree.Reaches definition := by
        refine w.conversion?_reaches hr (fun d name hd => ?_) hfound
        obtain ⟨object, rfl, -⟩ := Value.instanceOf_of_mem_members hd
        exact absurd rfl (hplain object)
      have hclosure : world.conversionClosure definition v = .root := by
        unfold World.conversionClosure
        split
        · exact absurd rfl (hplain _)
        · rfl
      obtain ⟨member, -, taken, given, body, hdef, -⟩ := Tree.conversion?_defined hfound
      refine ⟨nofun, hclosure, hreach, fair_iff.2 ?_, hholds.subject, hholds.arguments, htyped⟩
      have hconversion : world.program.analysis.tree.isConversion definition = true := by
        rw [Tree.isConversion, show world.program.analysis.tree.construct definition = _ from hdef]
      rw [h.conversions definition (w.mem_reachable hreach) hconversion]
      exact nofun

omit h w in
/-- A property is a method of a text, as no value is of a structure. -/
theorem method_of_property {world : World} {subject : Value} (hs : P.Simple subject)
    (hv : world.property subject name = .ok v) :
    ∃ method receiver, v = .function (.text method receiver) := by
  unfold World.property at hv
  split at hv
  · rename_i object
    exact absurd ((Value.holds_instanceOf object).1 hs).1 id
  · split at hv
    · rename_i method _
      obtain ⟨receiver, -, hv⟩ := bind_eq_ok hv
      cases hv
      exact ⟨method, receiver, rfl⟩
    · cases hv

/-- A definition with code of its own stands in the program's own scope. -/
theorem current_root (hr : p.tree.Reaches node)
    (hplace : current = .root ↔ p.tree.home node = p.tree.root)
    (hs : (p.tree.scopeOf? node).isSome = true) : current = .root :=
  hplace.2 (topLevel_home w (h.definitions node (w.mem_reachable hr) hs)).2

/-- A name asks for its value. -/
theorem reference_matches (hm : P.Meets current current' s s') (hr : p.tree.Reaches node)
    (hc : p.tree.construct node = .reference name) (hf : p.analysis.Fair P.calm node) :
    (∀ o, (s.world p P.left).outcome s.evaluations current node operands = .ok o →
      (s'.world p P.right).outcome s'.evaluations current' node operands = .ok o ∧ P.Apt node o) ∧
      (P.same → ∀ kind,
        (s.world p P.left).outcome s.evaluations current node operands = .error kind →
          (s'.world p P.right).outcome s'.evaluations current' node operands = .error kind) := by
  obtain ⟨hok, herror⟩ := hm.lookup h w hr hc hf
  rw [World.outcome_reference (w := s.world p P.left) hc,
    World.outcome_reference (w := s'.world p P.right) hc]
  refine ⟨fun o ho => ?_, fun hsame kind hk => ?_⟩
  · obtain ⟨v, hv, rfl⟩ := map_eq_ok ho
    obtain ⟨hv', hsimple, htyped⟩ := hok v hv
    exact ⟨by rw [hv']; rfl, hsimple, htyped⟩
  · cases hl : World.lookup s.evaluations current name with
    | ok v =>
      rw [hl] at hk
      cases hk
    | error e =>
      rw [hl] at hk
      rw [herror hsame e hl]
      exact hk

section
variable (L : P.Laws) (hs : P.streams s.streams s'.streams) (hr : p.tree.Reaches node)
  (hf : p.analysis.Fair P.calm node) (hplace : current = .root ↔ p.tree.home node = p.tree.root)
  (hops : ∀ v ∈ operands, P.Simple v)
  (hcall : ∀ function inputs, p.tree.construct node = .call function inputs →
    ∃ v rest, operands = v :: rest ∧ p.analysis.Typed function v)
include L hs hr hf hplace hops hcall

/-- A node that neither is a name nor asks for `this` asks for what its operands say. -/
theorem outcome_apt (hname : ∀ name, p.tree.construct node ≠ .reference name)
    (hthis : p.tree.construct node ≠ .thisValue) {o : Outcome}
    (ho : (s.world p P.left).outcome s.evaluations current node operands = .ok o) :
    P.Apt node o := by
  have hstreams : s.streams.Holds (Handle.Simple P.known) := (L.regular hs).holds
  have hnone : ∀ id e, Evaluations.find? .empty id = some e → e.kind ≠ .structureDef :=
    fun _ _ hf => by cases hf
  have hallows := Plain.allows_simple (w := s.world p P.left) h P.known hnone current node
  have hholds : o.Holds (Handle.Simple P.known) := by
    have helsewhere : (s.world p P.left).outcome .empty current node operands =
        (s.world p P.left).outcome s.evaluations current node operands :=
      World.outcome_elsewhere hname hthis (.inr rfl)
    exact World.outcome_holds hallows hstreams (fun _ _ hf => by cases hf) hops
      (helsewhere.trans ho)
  have hseen : ∀ i, P.Simple ((s.world p P.left).seen (World.operand operands i)) :=
    fun i => World.seen_holds hstreams (World.operand_holds hops i)
  -- only a property may be called besides a name
  have htyped : (∀ subject name, p.tree.construct node ≠ .property subject name) →
      ∀ v, p.analysis.Typed node v := fun hproperty v => typed_of_construct hname hproperty
  unfold World.outcome at ho
  rw [Scene.world_tree] at ho
  cases hc : p.tree.construct node with
  | reference name => exact absurd hc (hname name)
  | thisValue => exact absurd hc hthis
  | structureDef => exact absurd hc h.not_structureDef
  | program | conditional =>
    rw [hc] at ho
    cases ho
    exact htyped fun _ _ hn => by cases hc.symm.trans hn
  | property subject name =>
    rw [hc] at ho
    obtain ⟨v, hv, rfl⟩ := map_eq_ok ho
    exact ⟨hholds, fun name _ _ _ _ hn => absurd hn (hname name),
      fun name _ hn => absurd hn (hname name), fun _ _ _ => method_of_property (hseen 0) hv⟩
  | binding name type value =>
    rw [hc] at ho
    cases value with
    | none => cases ho
    | some value =>
      cases ho
      exact ⟨hholds, congrArg Construct.definedName? hc,
        fun _ _ _ _ hd => (by cases hc.symm.trans hd), htyped fun _ _ hn => by cases hc.symm.trans hn⟩
  | functionDef name inputs output body =>
    rw [hc] at ho
    cases ho
    have hcurrent := current_root h w hr hplace (by rw [Tree.scopeOf?, hc]; rfl)
    subst hcurrent
    exact ⟨hholds, congrArg Construct.definedName? hc, fun _ _ _ _ _ => rfl,
      htyped fun _ _ hn => by cases hc.symm.trans hn⟩
  | call function inputs =>
    rw [hc] at ho
    obtain ⟨v, rest, rfl, ht⟩ := hcall function inputs hc
    refine apt_call h w hr hf hc (ht.seen _) (hseen 0) (fun u hu => ?_) ho
    obtain ⟨raw, hraw, rfl⟩ := List.mem_map.1 hu
    exact World.seen_holds hstreams (hops raw (List.mem_of_mem_drop hraw))
  | convert expression type =>
    rw [hc] at ho
    exact apt_convert h w rfl hr hc (hseen 0) ho
  | changed stream =>
    rw [hc] at ho
    obtain ⟨id, -, ho⟩ := bind_eq_ok ho
    cases ho
    exact ⟨hholds, htyped (fun _ _ hn => by cases hc.symm.trans hn) _⟩
  | reaction =>
    rw [hc] at ho
    cases ho
    have hdependent : Machine.isPassDependent p.tree node = true := by
      rw [Machine.isPassDependent, hc]
    exact ⟨hholds, L.quiet (hf.source (.reaction hc)) hdependent,
      htyped fun _ _ hn => by cases hc.symm.trans hn⟩
  | _ =>
    rw [hc] at ho
    first
    | cases ho
      exact ⟨hholds, htyped (fun _ _ hn => by cases hc.symm.trans hn) _⟩
    | cases ho
    | obtain ⟨v, -, rfl⟩ := map_eq_ok ho
      exact ⟨hholds, htyped (fun _ _ hn => by cases hc.symm.trans hn) _⟩

omit hcall in
/-- What a node asks for that neither is a name nor asks for `this` is in its operands. -/
theorem outcome_eq (hm : P.Meets current current' s s')
    (hname : ∀ name, p.tree.construct node ≠ .reference name)
    (hthis : p.tree.construct node ≠ .thisValue) :
    (s'.world p P.right).outcome s'.evaluations current' node operands =
      (s.world p P.left).outcome s.evaluations current node operands := by
  have hplaced : p.tree.scopeOf? node = none ∨ current' = current := by
    cases hdefinition : p.tree.scopeOf? node with
    | none => exact .inl rfl
    | some scope =>
      have hcurrent := current_root h w hr hplace (by rw [hdefinition]; rfl)
      cases hm.alike with
      | program hleft hright => exact .inr (hright.trans hleft.symm)
      | call hleft => exact absurd hcurrent hleft
  have helsewhere : (s'.world p P.right).outcome s'.evaluations current' node operands =
      (s'.world p P.right).outcome s.evaluations current node operands :=
    World.outcome_elsewhere (w := s'.world p P.right) hname hthis hplaced
  refine helsewhere.trans (World.outcome_like rfl (fun v hv => seen_eq L hs (hops v hv))
    (fun count => previousValue_eq L hs (World.operand_holds hops 0) count) fun stream hchanged => ?_)
  have hdependent : Machine.isPassDependent p.tree node = true := by
    rw [Machine.isPassDependent, show p.tree.construct node = _ from hchanged]
  have hsame := L.equal (L.quiet (hf.source (.changed hchanged)) hdependent)
  show P.right.changed = P.left.changed
  rw [hsame]

/-- A node asks for the same in both runs. -/
theorem outcome_matches (hm : P.Meets current current' s s') :
    (∀ o, (s.world p P.left).outcome s.evaluations current node operands = .ok o →
      (s'.world p P.right).outcome s'.evaluations current' node operands = .ok o ∧ P.Apt node o) ∧
      (P.same → ∀ kind,
        (s.world p P.left).outcome s.evaluations current node operands = .error kind →
          (s'.world p P.right).outcome s'.evaluations current' node operands = .error kind) := by
  by_cases hreference : ∃ name, p.tree.construct node = .reference name
  · obtain ⟨name, hc⟩ := hreference
    exact reference_matches h w hm hr hc hf
  have hname : ∀ name, p.tree.construct node ≠ .reference name :=
    fun name hn => hreference ⟨name, hn⟩
  by_cases hc : p.tree.construct node = .thisValue
  · obtain ⟨heq, hsimple⟩ := hm.this_eq
    rw [World.outcome_this (w := s.world p P.left) hc,
      World.outcome_this (w := s'.world p P.right) hc, heq]
    refine ⟨fun o ho => ⟨ho, ?_⟩, fun _ _ hk => hk⟩
    obtain ⟨v, hv, rfl⟩ := map_eq_ok ho
    exact ⟨hsimple v hv, typed_of_construct hname fun _ _ hn => by cases hc.symm.trans hn⟩
  · rw [outcome_eq h w L hs hr hf hplace hops hm hname hc]
    exact ⟨fun o ho => ⟨ho, outcome_apt h w L hs hr hf hplace hops hcall hname hc ho⟩,
      fun _ _ hk => hk⟩

end
end

end Direct.Pairing
end ReactiveLang
