import ReactiveLang.Proofs.Eval.Failing
import ReactiveLang.Proofs.Eval.Memory
import ReactiveLang.Proofs.Eval.Statuses

/-!
# Links between evaluations

Every evaluation that a machine names has begun, and its link goes to an earlier one, as long as the
reactions of the pass before have kept neither instances nor closures.

* `Evaluations.Walk`: the way along the links to an evaluation without one. `walk_chain`: the names
  that an evaluation sees are those along its walk, which is never cut off.
* `Reached.linked`: what all machines of a pass name, down to the result.
* `Reached.placeless`: what a pass remembers for the next one names no evaluation at all.
-/

namespace ReactiveLang

/-- The handle names no evaluation: it is no instance and no definition with its closure. -/
def Handle.Placeless (h : Handle) : Prop := h.evaluation? = none

theorem Handle.Placeless.begun {h : Handle} (hp : h.Placeless) (n : Nat) : h.Begun n :=
  fun id hid => by rw [hp] at hid; cases hid

theorem Handle.Placeless.rooted {h : Handle} (hp : h.Placeless) : h.Rooted :=
  fun id hid => by rw [hp] at hid; cases hid

/-- A portable value names no evaluation. -/
theorem Value.placeless_of_isPortable {n : Nat} {v : Value} (h : v.isPortable = true)
    (hv : v.Holds (Handle.Known n)) : v.Holds Handle.Placeless :=
  holds_of_isPortable (fun _ => rfl) h hv

/-! ## Walks -/

/-- The evaluations along the links, from one to the first that has no link. All of them are
there. -/
inductive Evaluations.Walk (es : Evaluations) : EvaluationId → List EvaluationId → Prop where
  | last {id : EvaluationId} {e : Evaluation} (found : es.find? id = some e)
      (closure : e.closure = none) : Walk es id [id]
  | link {id next : EvaluationId} {e : Evaluation} {ids : List EvaluationId}
      (found : es.find? id = some e) (closure : e.closure = some next) (rest : Walk es next ids) :
      Walk es id (id :: ids)

namespace Evaluations

variable {es : Evaluations}

/-- A walk comes by no evaluation twice: it goes back and back. -/
theorem Walk.descending (hl : es.Linked) {id : EvaluationId} {ids : List EvaluationId}
    (h : es.Walk id ids) : ids.Pairwise (fun a b => b.index < a.index) ∧
      ∀ other ∈ ids, other.index ≤ id.index := by
  induction h with
  | last => simp
  | @link id next e ids found closure _ ih =>
    obtain ⟨hpairs, hle⟩ := ih
    have hlt := hl id e next found closure
    refine ⟨List.pairwise_cons.2 ⟨fun other hm => Nat.lt_of_le_of_lt (hle other hm) hlt, hpairs⟩,
      fun other hm => ?_⟩
    rcases List.mem_cons.1 hm with rfl | hm
    · exact Nat.le_refl _
    · exact Nat.le_of_lt (Nat.lt_of_le_of_lt (hle other hm) hlt)

/-- With fuel for all earlier evaluations the chain is the whole walk. -/
theorem walk_chainFrom (hl : es.Linked) (hd : es.Dense) {fuel : Nat} {id : EvaluationId}
    (hfuel : id.index < fuel) (hid : id.index < es.size) : es.Walk id (es.chainFrom fuel id) := by
  induction fuel generalizing id with
  | zero => exact absurd hfuel (Nat.not_lt_zero _)
  | succ fuel ih =>
    obtain ⟨e, he⟩ := Option.isSome_iff_exists.1 (hd id hid)
    unfold chainFrom
    rw [he, Option.bind_some]
    cases hc : e.closure with
    | none => exact .last he hc
    | some next =>
      have hlt := hl id e next he hc
      exact .link he hc (ih (Nat.lt_of_lt_of_le hlt (Nat.le_of_lt_succ hfuel))
        (Nat.lt_trans hlt hid))

theorem walk_chain (hl : es.Linked) (hd : es.Dense) {id : EvaluationId} (hid : id.index < es.size) :
    es.Walk id (es.chain id) := walk_chainFrom hl hd hid hid

end Evaluations

namespace Machine

variable {ok : Handle → Prop} {m m' : Machine} {w : World} {s : Step} {streams : Streams}

/-! ## Results -/

/-- The result, if there is one, holds `ok`. -/
def ResultHolds (ok : Handle → Prop) (m : Machine) : Prop := ∀ v, m.result = some v → v.Holds ok

theorem settle_resultHolds (hs : w.streams.Holds ok) (h : m.Holds ok)
    (hi : ∀ g ∈ m.frames, m.Gives ok g) (hr : m.ResultHolds ok) : (m.settle w).ResultHolds ok :=
  ((holds_iff_only.1 h).settle fun g hg _ hvalues => frameResult_holds hs h (hi g hg) hvalues).2 hr

/-- A failure shows what the failing node has looked at, or it is a limit and shows nothing. -/
theorem failure_holds (hm : m.Holds ok) (hs : w.streams.Holds ok) (hfail : ok .failure)
    {f : Failure} (h : effect w m s = .error f) : f.toValue.Holds ok := by
  intro handle hmem
  rcases List.mem_cons.1 hmem with rfl | hmem
  · exact hfail
  · obtain ⟨-, hown | hlimit⟩ := effect_fails hm hs h
    · exact hown.2 handle hmem
    · generalize f.kind = kind at hlimit hmem
      cases hlimit with
      | steps => cases hmem
      | call _ _ refused => cases refused <;> cases hmem

/-! ## Steps -/

/-- What a step gives as a result names no evaluation that has not begun. -/
theorem step_resultHolds (h : m.Linked) (hp : w.pass.Holds Handle.Rooted) (hr : w.streams.Regular)
    (hres : m.result = none) (hs : m.step w = some (s, m', streams)) :
    m'.ResultHolds (Handle.Begun m'.evaluations.size) := by
  obtain ⟨hnext, ⟨f, he, rfl, -⟩ | ⟨m1, he, rfl⟩⟩ := step_cases hs
  · rintro v ⟨⟩
    have hes : (m.advanced.fail f).evaluations = m.evaluations := m.advanced_evaluations
    rw [hes]
    exact failure_holds h.holds hr.holds nofun he
  · have hne := advanced_frames (frames_ne_nil_of_next? hnext)
    obtain ⟨h1, -⟩ := execute_linked h.advanced hp hr hne he
    have hnone : m1.result = none :=
      (execute_result he).trans ((sameGiven_advanced m).result.trans hres)
    rw [settle_evaluations]
    refine settle_resultHolds (w := { w with streams }) ((execute_streams he).2 hr).holds h1.holds
      (fun g hg => Handle.begun_of_evaluation rfl (h1.placed.frames g hg)) fun v hv => ?_
    rw [hnone] at hv
    cases hv

/-! ## All machines of a program -/

namespace Reached

variable {p : Program} {pass : Pass} {n : Nat}

theorem result_of_next? (h : Reached p pass n m streams) {s : Step} (hn : m.next? = some s) :
    m.result = none := by
  have hne := frames_ne_nil_of_next? hn
  obtain ⟨-, rfl⟩ | ⟨-, hstage⟩ := h.stage
  · rfl
  · cases hstage with
    | going _ result _ _ => exact result
    | completed _ _ frames _ => exact absurd frames hne
    | failed _ _ frames => exact absurd frames hne

theorem recallable (h : Reached p pass n m streams) :
    Recallable m.memo ∧ Recallable pass.memo := by
  induction h with
  | first memo _ => exact ⟨nofun, by rw [memo]; exact nofun⟩
  | step _ taken ih => exact ⟨step_recallable ih.1 ih.2 taken, ih.2⟩
  | tick _ _ _ ih => exact ih
  | next _ memo _ ih => exact ⟨nofun, fun e he => ih.1 e (memo he)⟩

/-- What is remembered names no evaluation, whatever the reactions have kept. -/
theorem placeless (h : Reached p pass n m streams) :
    (∀ e ∈ m.memo, e.2.Holds Handle.Placeless) ∧ ∀ e ∈ pass.memo, e.2.Holds Handle.Placeless := by
  obtain ⟨-, hm, hp⟩ := h.known
  obtain ⟨hmemo, hpass⟩ := h.recallable
  exact ⟨fun e he => Value.placeless_of_isPortable (hmemo e he) (hm.memo e he),
    fun e he => Value.placeless_of_isPortable (hpass e he) (hp.memo e he)⟩

theorem tallied (h : Reached p pass n m streams) : m.Tallied := by
  induction h with
  | first => exact tallied_start p
  | step _ taken ih => exact step_tallied ih taken
  | tick _ _ _ ih => exact ih
  | next => exact tallied_start p

/-- The machines of a pass name evaluations that have begun, if the reactions of the pass before
have kept neither instances nor closures. -/
theorem linked (h : Reached p pass n m streams)
    (hkept : ∀ e ∈ pass.reactions, e.2.Holds Handle.Placeless) :
    m.Linked ∧ m.ResultHolds (Handle.Begun m.evaluations.size) := by
  induction h with
  | first => exact ⟨linked_start p, nofun⟩
  | step before taken ih =>
    obtain ⟨hl, -⟩ := ih hkept
    have hrooted : Pass.Holds Handle.Rooted _ :=
      ⟨fun e he => (before.placeless.2 e he).mono fun _ => Handle.Placeless.rooted,
        fun e he => (hkept e he).mono fun _ => Handle.Placeless.rooted⟩
    exact ⟨(step_linked hl hrooted before.known.1 taken).1, step_resultHolds hl hrooted
      before.known.1 (before.result_of_next? (step_cases taken).1) taken⟩
  | tick _ _ _ ih => exact ih hkept
  | next => exact ⟨linked_start p, nofun⟩

end Reached

/-- Links are in range and go back. In every machine that a program reaches, if the reactions of the
pass before have kept neither instances nor closures: frames run in evaluations that have begun,
every link goes to an earlier evaluation, and whatever the machine, its result and the pass hold at
any depth names evaluations that have begun. So every number that is named is found, names and
`this` are looked up along a walk that ends by itself and comes by no evaluation twice, and a call
goes to an evaluation that is there. What is remembered for the next pass names no evaluation. -/
theorem reached_linked {p : Program} {pass : Pass} {n : Nat} (hr : Reached p pass n m streams)
    (hkept : ∀ e ∈ pass.reactions, e.2.Holds Handle.Placeless) :
    let es := m.evaluations
    (∀ f ∈ m.frames, f.evaluation.index < es.size) ∧
    (∀ id e next, es.find? id = some e → e.closure = some next → next.index < id.index) ∧
    m.Holds (Handle.Begun es.size) ∧ pass.Holds (Handle.Begun es.size) ∧
    m.ResultHolds (Handle.Begun es.size) ∧
    (∀ id, id.index < es.size ↔ (es.find? id).isSome = true) ∧
    (∀ id, id.index < es.size →
      es.Walk id (es.chain id) ∧ (es.chain id).Pairwise fun a b => b.index < a.index) ∧
    (∀ replaying s call name, m.next? = some s →
      m.Calls ⟨p, pass, streams, replaying⟩ s call name → call.closure.index < es.size) ∧
    ∀ e ∈ m.memo, e.2.Holds Handle.Placeless := by
  intro es
  obtain ⟨hl, hresult⟩ := hr.linked hkept
  obtain ⟨hmemo, hpassMemo⟩ := hr.placeless
  have hdense := hr.tallied.dense
  refine ⟨hl.placed.frames, hl.placed.links, hl.holds,
    ⟨fun e he => (hpassMemo e he).mono fun _ h => h.begun _,
      fun e he => (hkept e he).mono fun _ h => h.begun _⟩, hresult,
    fun id => ⟨hdense id, fun hfound => Nat.lt_of_not_le fun hle => ?_⟩,
    fun id hid => ?_, fun replaying s call name hnext hcalls => ?_, hmemo⟩
  · rw [hl.placed.newest id hle] at hfound
    cases hfound
  · have hwalk := Evaluations.walk_chain hl.placed.links hdense hid
    exact ⟨hwalk, (hwalk.descending hl.placed.links).1⟩
  · obtain ⟨node, -, ho, -⟩ := hcalls
    exact hl.closure_lt (w := ⟨p, pass, streams, replaying⟩) (frames_ne_nil_of_next? hnext)
      hr.known.1 ho

/-- The tree of a program that defines `flip`, whose body is the negation of `x`, and binds `x` to a
reaction that begins with false and takes what `flip` gives in every later pass. -/
def flipTree : Tree :=
  ⟨#[⟨.boolean false, .zero⟩, ⟨.boolean true, .zero⟩, ⟨.reference "x", .zero⟩,
    ⟨.unary .not ⟨2⟩, .zero⟩, ⟨.functionDef "flip" [] none (some ⟨3⟩), .zero⟩,
    ⟨.reference "flip", .zero⟩, ⟨.call ⟨5⟩ [], .zero⟩, ⟨.reaction ⟨0⟩ ⟨1⟩ ⟨6⟩, .zero⟩,
    ⟨.binding "x" none (some ⟨7⟩), .zero⟩, ⟨.block [⟨4⟩, ⟨8⟩], .zero⟩, ⟨.program ⟨9⟩, .zero⟩],
    #[some ⟨7⟩, some ⟨7⟩, some ⟨3⟩, some ⟨4⟩, some ⟨9⟩, some ⟨6⟩, some ⟨7⟩, some ⟨8⟩, some ⟨9⟩,
      some ⟨10⟩, none], ⟨10⟩⟩

/-- In the second pass, which has a value of the reaction, the call of `flip` sees the program's own
names. -/
theorem reached_linked_flip : ∃ pass n, ∃ c : Machine × Streams,
    Reached (.ofTree flipTree .default) pass n c.1 c.2 ∧
      pass.reactions.map (fun e => (e.1, e.2.toBoolean?)) = [(⟨7⟩, some false)] ∧
      (∀ e ∈ pass.reactions, e.2.Holds Handle.Placeless) ∧
      c.1.frames.map (fun f => f.evaluation) = [⟨1⟩, ⟨0⟩] ∧
      (∀ f ∈ c.1.frames, f.evaluation.index < c.1.evaluations.size) ∧
      c.1.evaluations.chain ⟨1⟩ = [⟨1⟩, ⟨0⟩] ∧ c.1.evaluations.Walk ⟨1⟩ [⟨1⟩, ⟨0⟩] := by
  let p := Program.ofTree flipTree .default
  let second (first : Machine × Streams) : Pass := ⟨1, [], [], first.1.memo, first.1.reactions⟩
  let inCall (first : Machine × Streams) := Pass.run p (second first) 16 (start p, first.2)
  have hbegin : Reached p .first 0 (start p) .empty := .first rfl rfl
  obtain ⟨n, hfirst⟩ := hbegin.run 100
  have hruns : ((Pass.run p .first 100 (start p, .empty)).1.reactions.map
        (fun e => (e.1, e.2.toBoolean?)) = [(⟨7⟩, some false)] ∧
      ∀ e ∈ (Pass.run p .first 100 (start p, .empty)).1.reactions, e.2.handles = []) ∧
      let c := inCall (Pass.run p .first 100 (start p, .empty))
      c.1.frames.map (fun f => f.evaluation) = [⟨1⟩, ⟨0⟩] ∧ c.1.evaluations.size = 2 ∧
        c.1.evaluations.chain ⟨1⟩ = [⟨1⟩, ⟨0⟩] := by
    decide +kernel
  generalize Pass.run p .first 100 (start p, .empty) = first at hfirst hruns
  obtain ⟨⟨hvalue, hkept⟩, hframes, hsize, hchain⟩ := hruns
  have hnext : Reached p (second first) 0 (start p) first.2 :=
    .next hfirst (fun _ h => h) fun _ h => h
  obtain ⟨k, hr⟩ := hnext.run 16
  have hplaceless : ∀ e ∈ (second first).reactions, e.2.Holds Handle.Placeless :=
    fun e he => Value.holds_of_handles_nil (hkept e he)
  obtain ⟨hbegun, -, -, -, -, -, hwalk, -, -⟩ := reached_linked hr hplaceless
  have hend := (hwalk ⟨1⟩ (hsize ▸ Nat.one_lt_two)).1
  rw [hchain] at hend
  exact ⟨second first, k, _, hr, hvalue, hplaceless, hframes, hbegun, hchain, hend⟩

end Machine
end ReactiveLang
