import ReactiveLang.Proofs.Analysis.MissingInputs
import ReactiveLang.Proofs.Eval.Calling
import ReactiveLang.Proofs.Eval.Defaults

/-!
# The inputs of a call

The analysis finds the inputs that a call leaves out although they have no default, and so does the
machine when the call begins, each for itself; the code of the call runs the defaults of the others.
`inputs_agree`: they agree for every number of arguments.

* `enter_eq`: a call within the limits fails for the first input that is missing, or it begins.
* `enter_take`: arguments beyond the inputs are dropped.
* `called_bindsInputs`: when the steps of the body begin, or the frame is left, all inputs are bound.
-/

namespace ReactiveLang

/-- The definition can be called: it is a function with a body, or a structure. -/
inductive Tree.CallableAs (t : Tree) (definition : NodeId) : EvaluationKind → Prop where
  | function {name : String} {inputs : List NodeId} {output : Option Annotation} {body : NodeId}
      (construct : t.construct definition = .functionDef name inputs output (some body)) :
      CallableAs t definition .function
  | structureDef {name : String} {inputs : List NodeId} {body : Option NodeId}
      (construct : t.construct definition = .structureDef name inputs body) :
      CallableAs t definition .structureDef

namespace Machine

variable {m : Machine} {w : World} {t : Tree} {call : Call}

/-! ## The inputs that are given -/

/-- What an evaluation has names for, it has names for when inputs are given. -/
theorem bindInputs_retains (inputs : List NodeId) (arguments : List Value) {e : Evaluation}
    {name : String} (h : (e.get? name).isSome = true) :
    ((bindInputs t inputs arguments e).get? name).isSome = true := by
  induction inputs generalizing arguments e with
  | nil => simpa [bindInputs] using h
  | cons input inputs ih =>
    cases arguments with
    | nil => simpa [bindInputs] using h
    | cons v rest =>
      unfold bindInputs
      split
      · rename_i bound _
        refine ih rest ?_
        by_cases hname : name = bound
        · rw [hname, Evaluation.get?, Evaluation.bind, Keyed.lookup_insert_self]
          rfl
        · rwa [Evaluation.get?, Evaluation.bind, Keyed.lookup_insert_of_ne hname]
      · exact ih rest h

/-- Each input that is given has a name. -/
theorem bindInputs_bound {inputs : List NodeId} {arguments : List Value} {e : Evaluation}
    {input : NodeId} {name : String} (hi : input ∈ inputs.take arguments.length)
    (hname : (t.construct input).definedName? = some name) :
    ((bindInputs t inputs arguments e).get? name).isSome = true := by
  induction inputs generalizing arguments e with
  | nil => simp at hi
  | cons first inputs ih =>
    cases arguments with
    | nil => simp at hi
    | cons v rest =>
      rw [List.length_cons, List.take_succ_cons] at hi
      unfold bindInputs
      rcases List.mem_cons.1 hi with rfl | hi
      · rw [hname]
        refine bindInputs_retains inputs rest ?_
        rw [Evaluation.get?, Evaluation.bind, Keyed.lookup_insert_self]
        rfl
      · split <;> exact ih hi

theorem bindInputs_take (t : Tree) (inputs : List NodeId) (arguments : List Value)
    (e : Evaluation) :
    bindInputs t inputs (arguments.take inputs.length) e = bindInputs t inputs arguments e := by
  induction inputs generalizing arguments e with
  | nil => simp [bindInputs]
  | cons input inputs ih =>
    cases arguments with
    | nil => rfl
    | cons v rest =>
      rw [List.length_cons, List.take_succ_cons, bindInputs, bindInputs]
      split <;> exact ih rest _

theorem exists_definedName? {input : NodeId} (h : t.isBinding input = true) :
    ∃ name, (t.construct input).definedName? = some name := by
  unfold Tree.isBinding at h
  split at h
  · rename_i name _ _ hc
    exact ⟨name, by rw [hc]; rfl⟩
  · cases h

/-- The first input that has to be given gives its name to the failure. -/
theorem findSome?_requiredName? {inputs : List NodeId}
    (h : ∀ input ∈ inputs, t.isBinding input = true) :
    inputs.findSome? (requiredName? t) =
      (inputs.filter fun input => !t.hasDefault input).head?.bind
        fun input => (t.construct input).definedName? := by
  induction inputs with
  | nil => rfl
  | cons input inputs ih =>
    obtain ⟨hinput, hrest⟩ := List.forall_mem_cons.1 h
    rw [List.findSome?_cons, ih hrest, List.filter_cons]
    unfold Tree.isBinding at hinput
    split at hinput
    · rename_i name type value hc
      cases value <;> simp [requiredName?, Tree.hasDefault, hc, Construct.definedName?]
    · cases hinput

/-! ## How a call begins -/

theorem exists_callName (h : t.CallableAs call.definition call.kind) :
    ∃ name, callName t call = .ok name := by
  unfold callName
  generalize call.kind = kind at h
  cases h with
  | function construct => exact ⟨_, by rw [construct]; rfl⟩
  | structureDef construct => exact ⟨_, by rw [construct]; rfl⟩

/-- The machine in which a call has begun. -/
def called (m : Machine) (w : World) (call : Call) : Machine :=
  { m with
    callCounts := Keyed.insert call.definition (m.callCount call.definition + 1) m.callCounts
    evaluations := (m.evaluations.begin (call.evaluation w.tree)).2
    frames := call.frame w.program (m.evaluations.begin (call.evaluation w.tree)).1 :: m.frames }

/-- A call within the limits fails for the first input that is missing, or it begins. -/
theorem enter_eq {name : String} (hname : callName w.tree call = .ok name)
    (hdepth : m.depth < w.program.config.maxCallDepth)
    (hcount : m.callCount call.definition < w.program.config.maxEvaluations) :
    m.enter w call =
      match ((call.inputs w.tree).drop (call.provided w.tree)).findSome? (requiredName? w.tree) with
      | some missing => .error (.valueRequired missing)
      | none => .ok (m.called w call) := by
  obtain ⟨kind, -, hrefused⟩ | ⟨-, -, hcounted⟩ :=
    m.countCall_spec w.program.config call.definition name
  · cases hrefused with
    | depth limit => omega
    | evaluations depth limit => omega
  · unfold enter
    rw [hname]
    show (countCall _ _ _ _ >>= _) = _
    rw [hcounted]
    rfl

/-- Arguments beyond the inputs are dropped. -/
theorem enter_take (m : Machine) (w : World) (call : Call) :
    m.enter w { call with arguments := call.arguments.take (call.inputs w.tree).length } =
      m.enter w call := by
  have hprovided : min (min (call.inputs w.tree).length call.arguments.length)
      (call.inputs w.tree).length = min call.arguments.length (call.inputs w.tree).length := by
    omega
  unfold Call.inputs at *
  unfold enter
  dsimp only
  rw [List.length_take, hprovided, bindInputs_take]
  rfl

/-! ## From the beginning of a call to its body -/

/-- The frame of a call, with so many frames below it, still runs steps of defaults: so many steps
come before the body. -/
def RunsDefaults (m : Machine) (id : EvaluationId) (depth before : Nat) : Prop :=
  ∃ above g below, m.frames = above ++ g :: below ∧ below.length = depth ∧ g.evaluation = id ∧
    g.position < before

/-- A call that has begun with so many arguments: its frame runs the code of the inputs that were
left out and then the body, and wherever a run goes from there, all inputs are bound in the new
evaluation when the body begins, or when there is no frame of the call any more. -/
structure BindsInputs (p : Program) (m : Machine) (call : Call) (m' : Machine) : Prop where
  frame : ∃ f, m'.frames = f :: m.frames ∧ f.evaluation = ⟨m.evaluations.size⟩ ∧ f.position = 0 ∧
    f.steps.toList =
      ((p.tree.inputsOf call.definition).drop call.arguments.length).flatMap p.tree.code ++
        (p.tree.bodyOf? call.definition).toList.flatMap p.tree.code
  /-- What is bound at first are the arguments, as far as there are inputs. -/
  given : ∀ name v, Evaluations.get? m'.evaluations ⟨m.evaluations.size⟩ name = some v →
    ∃ input, (input, v) ∈ (p.tree.inputsOf call.definition).zip call.arguments ∧
      (p.tree.construct input).definedName? = some name
  runs : ∀ (w : World) (m'' : Machine),
    Relation.ReflTransGen (Precedes p) (m'.settle w) m'' →
      m''.frames = [] ∧ m''.status = .exception ∨
        m''.RunsDefaults ⟨m.evaluations.size⟩ m.frames.length
          (((p.tree.inputsOf call.definition).drop call.arguments.length).flatMap
            p.tree.code).length ∨
        ∀ input ∈ p.tree.inputsOf call.definition,
          p.tree.BoundIn m''.evaluations ⟨m.evaluations.size⟩ input

section
variable (hcallable : w.tree.CallableAs call.definition call.kind)
include hcallable

theorem inputs_of_callable : call.inputs w.tree = w.tree.inputsOf call.definition := by
  have hkind : call.kind ≠ .conversion := by
    generalize call.kind = kind at hcallable
    cases hcallable <;> decide
  exact if_neg hkind

/-- The inputs that are left out are those beyond the arguments. -/
theorem drop_provided : (call.inputs w.tree).drop (call.provided w.tree) =
    (w.tree.inputsOf call.definition).drop call.arguments.length := by
  rw [Call.provided, inputs_of_callable hcallable]
  rcases Nat.le_total call.arguments.length (w.tree.inputsOf call.definition).length with hle | hle
  · rw [Nat.min_eq_left hle]
  · rw [Nat.min_eq_right hle, List.drop_length, List.drop_of_length_le hle]

theorem calledNodes_of_callable
    (hnone : w.tree.missingInputs call.definition call.arguments.length = []) :
    w.tree.calledNodes call.definition (call.provided w.tree) =
      (w.tree.inputsOf call.definition).drop call.arguments.length ++
        (w.tree.bodyOf? call.definition).toList := by
  have hdrop := drop_provided hcallable
  rw [inputs_of_callable hcallable] at hdrop
  have hall : ((w.tree.inputsOf call.definition).drop call.arguments.length).filter
      w.tree.hasDefault = (w.tree.inputsOf call.definition).drop call.arguments.length := by
    refine List.filter_eq_self.2 fun input hi => ?_
    simpa using List.filter_eq_nil_iff.1 hnone input hi
  rw [Tree.calledNodes, hdrop, hall]

end

/-- What is looked up in the evaluation of a call that has just begun. -/
theorem get?_called (m : Machine) (w : World) (call : Call) (name : String) :
    Evaluations.get? (m.called w call).evaluations ⟨m.evaluations.size⟩ name =
      (call.evaluation w.tree).get? name := by
  show ((m.evaluations.begin (call.evaluation w.tree)).2.find? ⟨m.evaluations.size⟩).bind _ = _
  rw [Evaluations.find?_begin, if_pos rfl]
  rfl

section
variable (hcallable : w.tree.CallableAs call.definition call.kind)
  (hbinds : ∀ input ∈ w.tree.inputsOf call.definition, w.tree.isBinding input = true)
include hcallable hbinds

/-- The inputs that are given are bound when the call begins. -/
theorem called_given {input : NodeId}
    (hi : input ∈ (w.tree.inputsOf call.definition).take call.arguments.length) :
    w.tree.BoundIn (m.called w call).evaluations ⟨m.evaluations.size⟩ input := by
  obtain ⟨name, hname⟩ := exists_definedName? (hbinds input (List.mem_of_mem_take hi))
  rw [← inputs_of_callable hcallable] at hi
  obtain ⟨v, hv⟩ := Option.isSome_iff_exists.1
    (bindInputs_bound (e := { Evaluation.start call.kind call.definition (some call.closure) with
      subject := call.subject }) hi hname)
  exact ⟨name, v, hname, (get?_called m w call name).trans hv⟩

section
variable (hdepth : m.depth < w.program.config.maxCallDepth)
  (hcount : m.callCount call.definition < w.program.config.maxEvaluations)
include hdepth hcount

/-- Within the limits a call fails for the first input that is missing, or it begins. -/
theorem enter_callable : m.enter w call =
    match (w.tree.missingInputs call.definition call.arguments.length).head?.bind
      fun input => (w.tree.construct input).definedName? with
    | some missing => .error (.valueRequired missing)
    | none => .ok (m.called w call) := by
  obtain ⟨name, hname⟩ := exists_callName hcallable
  rw [enter_eq hname hdepth hcount, drop_provided hcallable,
    findSome?_requiredName? fun input hi => hbinds input (List.mem_of_mem_drop hi)]
  rfl

/-- The failure of a call names the first input that is missing. -/
theorem enter_missing {first : NodeId}
    (hf : first ∈ (w.tree.missingInputs call.definition call.arguments.length).head?) :
    ∃ name, (w.tree.construct first).definedName? = some name ∧
      m.enter w call = .error (.valueRequired name) := by
  have hmem := List.mem_of_mem_drop (List.mem_filter.1 (List.mem_of_mem_head? hf)).1
  obtain ⟨name, hname⟩ := exists_definedName? (hbinds first hmem)
  refine ⟨name, hname, ?_⟩
  rw [enter_callable hcallable hbinds hdepth hcount, Option.mem_def.1 hf, Option.bind_some, hname]

theorem enter_begins (hnone : w.tree.missingInputs call.definition call.arguments.length = []) :
    m.enter w call = .ok (m.called w call) := by
  rw [enter_callable hcallable hbinds hdepth hcount, hnone]
  rfl

end

section
variable (hw : w.tree.WellFormed) (hcode : w.program.code = Code.ofTree w.tree)
  (hreaches : w.tree.Reaches call.definition)
  (hnone : w.tree.missingInputs call.definition call.arguments.length = [])
include hcode hnone

omit hbinds in
/-- Nothing is behind the frame of a call that has just begun. -/
theorem called_awaits : (m.called w call).Awaits w.tree
    ((w.tree.inputsOf call.definition).drop call.arguments.length ++
      (w.tree.bodyOf? call.definition).toList) ⟨m.evaluations.size⟩ m.frames.length := by
  refine .calling (g := call.frame w.program ⟨m.evaluations.size⟩) [] rfl rfl
    ⟨rfl, ?_, w.tree.through_begin _ _ (Nat.zero_le _) nofun⟩
  exact (call.frame_steps hcode _).trans
    (congrArg (List.flatMap w.tree.code) (calledNodes_of_callable hcallable hnone))

include hw hreaches

/-- A call that has begun binds all inputs before its body runs. -/
theorem called_bindsInputs (hframes : m.frames ≠ []) :
    m.BindsInputs w.program call (m.called w call) := by
  have hnodes := calledNodes_of_callable hcallable hnone
  have hr : ∀ node ∈ (w.tree.inputsOf call.definition).drop call.arguments.length ++
      (w.tree.bodyOf? call.definition).toList, w.tree.Reaches node :=
    fun node hn => hreaches.calledNode (hnodes ▸ hn)
  refine ⟨⟨call.frame w.program ⟨m.evaluations.size⟩, rfl, rfl, rfl, ?_⟩, fun name v hg => ?_,
    fun w' m'' hrun => ?_⟩
  · refine (call.frame_steps hcode _).trans ?_
    rw [← List.flatMap_append]
    exact congrArg (List.flatMap w.tree.code) hnodes
  · rw [get?_called] at hg
    obtain hnew | hgiven := get?_bindInputs hg
    · cases hnew
    · rwa [inputs_of_callable hcallable] at hgiven
  · have hbegun : (m.called w call).evaluations.HasBegun ⟨m.evaluations.size⟩ :=
      m.evaluations.hasBegun_begin (call.evaluation w.tree)
    have hes := settle_evaluations w' (m.called w call)
    obtain ⟨hawaits, hretains⟩ := Awaits.along hw hcode hr (List.length_pos_iff.2 hframes)
      (hes ▸ hbegun) ((called_awaits hcallable hcode hnone).settle (w := w') hw hr) hrun
    rw [hes] at hretains
    have hall : (∀ n ∈ (w.tree.inputsOf call.definition).drop call.arguments.length,
        w.tree.Defaulted m''.evaluations ⟨m.evaluations.size⟩ n) →
        ∀ input ∈ w.tree.inputsOf call.definition,
          w.tree.BoundIn m''.evaluations ⟨m.evaluations.size⟩ input := by
      intro hdefaulted input hi
      rw [← List.take_append_drop call.arguments.length (w.tree.inputsOf call.definition)] at hi
      rcases List.mem_append.1 hi with hi | hi
      · exact hretains.boundIn hbegun (called_given hcallable hbinds hi)
      · exact hdefaulted input hi (by simpa using List.filter_eq_nil_iff.1 hnone input hi)
    cases hawaits with
    | failed frames status => exact .inl ⟨frames, status⟩
    | called bound => exact .inr (.inr (hall fun n hn => bound n (List.mem_append_left _ hn)))
    | @calling above below g frames height prepares =>
      rcases Nat.lt_or_ge g.position
        (((w.tree.inputsOf call.definition).drop call.arguments.length).flatMap
          w.tree.code).length with hlt | hge
      · exact .inr (.inl ⟨above, g, below, frames, height, prepares.evaluation, hlt⟩)
      · exact .inr (.inr (hall (prepares.through.before hw hr hge)))

end

end

end Machine

/-! ## Analysis and machine -/

/-- The analysis and the machine agree on the inputs that a call leaves out. For a function with a
body or a structure, with inputs that are binds, and every number of arguments:

* a call with so many arguments has conflicts of missing inputs for those inputs beyond the
  arguments that have no default, and for no others;
* within the limits the call fails for want of a value if and only if there are such inputs, and
  names the first; arguments beyond the inputs change nothing;
* otherwise it begins, and when its body begins, or its frame is left, all inputs are bound. -/
theorem inputs_agree {d : Draft} {root : NodeId} {t : Tree} (ht : d.finish root = .ok t)
    (config : Config) {definition : NodeId} {kind : EvaluationKind}
    (hreaches : t.Reaches definition) (hcallable : t.CallableAs definition kind)
    (hbinds : ∀ input ∈ t.inputsOf definition, t.isBinding input = true) (n : Nat) :
    let p := Program.ofTree t config
    let missing := t.missingInputs definition n
    (∀ (node : NodeId) (arguments : List NodeId), arguments.length = n →
      Conflict.ofKind .missingInput
          (p.analysis.given (Inquiry.inputConflicts t node definition arguments)) =
        missing.map (p.analysis.missingInput node) ∧
      ∀ function, t.construct node = .call function arguments →
        (p.analysis.callee node = some (.function definition) ∨
          p.analysis.callee node = some (.structureDef definition)) →
        p.analysis.conflictsOf node =
          p.analysis.given (Inquiry.inputConflicts t node definition arguments)) ∧
    ∀ (m : Machine) (w : World) (call : Call), w.program = p → call.kind = kind →
      call.definition = definition → call.arguments.length = n → m.frames ≠ [] →
      m.depth < config.maxCallDepth → m.callCount definition < config.maxEvaluations →
      ((∃ name, m.enter w call = .error (.valueRequired name)) ↔ missing ≠ []) ∧
      (∀ first ∈ missing.head?, ∃ name, (t.construct first).definedName? = some name ∧
        m.enter w call = .error (.valueRequired name)) ∧
      m.enter w { call with arguments := call.arguments.take (t.inputsOf definition).length } =
        m.enter w call ∧
      (missing = [] → ∃ m', m.enter w call = .ok m' ∧ m.BindsInputs p call m') := by
  intro p missing
  refine ⟨fun node arguments hn => ⟨?_, fun function hc hcallee => ?_⟩, ?_⟩
  · rw [show missing = t.missingInputs definition arguments.length from hn ▸ rfl]
    exact p.analysis.missing_inputConflicts node definition arguments
  · exact p.analysis.conflictsOf_call hc hcallee
  rintro m ⟨program, pass, streams, replaying⟩ call rfl rfl rfl rfl hframes hdepth hcount
  let w : World := ⟨p, pass, streams, replaying⟩
  have hcallable : w.tree.CallableAs call.definition call.kind := hcallable
  have hfirst : ∀ first ∈ missing.head?, ∃ name, (t.construct first).definedName? = some name ∧
      m.enter w call = .error (.valueRequired name) := fun _ hf =>
    Machine.enter_missing (w := w) hcallable hbinds hdepth hcount hf
  have hbegins := Machine.enter_begins (w := w) hcallable hbinds hdepth hcount
  have htake := m.enter_take w call
  rw [Machine.inputs_of_callable hcallable] at htake
  refine ⟨⟨?_, fun hsome => ?_⟩, hfirst, htake, fun hnone => ⟨_, hbegins hnone, ?_⟩⟩
  · rintro ⟨name, hfail⟩ hnone
    rw [hbegins hnone] at hfail
    cases hfail
  · obtain ⟨name, -, hfail⟩ := hfirst _ (List.head?_eq_some_head hsome)
    exact ⟨name, hfail⟩
  · exact Machine.called_bindsInputs hcallable hbinds (Draft.finish_wellFormed ht) rfl hreaches
      hnone hframes

/-- The tree of a program that defines `greet` with an input `name` and an input `mark` that has a
default, and calls it with nothing. -/
def greetTree : Tree :=
  ⟨#[⟨.binding "name" none none, .zero⟩, ⟨.text "!", .zero⟩, ⟨.binding "mark" none (some ⟨1⟩), .zero⟩,
    ⟨.reference "name", .zero⟩, ⟨.functionDef "greet" [⟨0⟩, ⟨2⟩] none (some ⟨3⟩), .zero⟩,
    ⟨.reference "greet", .zero⟩, ⟨.call ⟨5⟩ [], .zero⟩, ⟨.block [⟨4⟩, ⟨6⟩], .zero⟩,
    ⟨.program ⟨7⟩, .zero⟩],
    #[some ⟨4⟩, some ⟨2⟩, some ⟨4⟩, some ⟨4⟩, some ⟨7⟩, some ⟨6⟩, some ⟨7⟩, some ⟨8⟩, none], ⟨8⟩⟩

theorem finish_greet : greetTree.edit.finish ⟨8⟩ = .ok greetTree := rfl

/-- With nothing, `greet` misses its name, and with three values it begins and binds both inputs. -/
theorem inputs_agree_greet : greetTree.edit.finish ⟨8⟩ = .ok greetTree ∧
    greetTree.Reaches ⟨4⟩ ∧ greetTree.CallableAs ⟨4⟩ .function ∧
    (∀ input ∈ greetTree.inputsOf ⟨4⟩, greetTree.isBinding input = true) ∧
    let p := Program.ofTree greetTree .default
    let w : World := ⟨p, .first, .empty, false⟩
    let m := Machine.start p
    let call (arguments : List Value) : Call := ⟨.function, ⟨4⟩, .root, none, arguments⟩
    let three := [Value.text "Ann", .text "?", .text "surplus"]
    Conflict.ofKind .missingInput (p.analysis.conflictsOf ⟨6⟩) = [p.analysis.missingInput ⟨6⟩ ⟨0⟩] ∧
      m.enter w (call []) = .error (.valueRequired "name") ∧
      ∃ m', m.enter w (call three) = .ok m' ∧ m.BindsInputs p (call three) m' := by
  have hblock : greetTree.Reaches ⟨7⟩ := Tree.Reaches.child ⟨0, .root⟩ (by decide)
  have hreaches : greetTree.Reaches ⟨4⟩ := hblock.child (by decide)
  have hbinds : ∀ input ∈ greetTree.inputsOf ⟨4⟩, greetTree.isBinding input = true := by decide
  refine ⟨finish_greet, hreaches, .function rfl, hbinds, ?_⟩
  intro p w m call three
  have hlimits : m.depth < Config.default.maxCallDepth ∧
      m.callCount ⟨4⟩ < Config.default.maxEvaluations := by decide
  obtain ⟨hconflicts, hnothing⟩ :=
    inputs_agree finish_greet .default hreaches (.function rfl) hbinds 0
  obtain ⟨hmissing, hcallee⟩ := hconflicts ⟨6⟩ [] rfl
  obtain ⟨-, hfirst, -⟩ := hnothing m w (call []) rfl rfl rfl rfl (List.cons_ne_nil _ _) hlimits.1
    hlimits.2
  obtain ⟨name, hname, hfail⟩ := hfirst ⟨0⟩ rfl
  obtain ⟨-, hthree⟩ := inputs_agree finish_greet .default hreaches (.function rfl) hbinds 3
  refine ⟨?_, ?_, ?_⟩
  · rw [hcallee ⟨5⟩ rfl (.inl (by decide +kernel)), hmissing]
    rfl
  · cases hname
    exact hfail
  · exact (hthree m w (call three) rfl rfl rfl rfl (List.cons_ne_nil _ _) hlimits.1
      hlimits.2).2.2.2 rfl

end ReactiveLang
