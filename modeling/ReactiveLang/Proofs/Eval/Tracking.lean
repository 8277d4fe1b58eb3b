import ReactiveLang.Proofs.Eval.Runs

/-!
# A machine that does what a computation does

`Follows r p pass fuel x s frames after holds`: a machine with these frames over the scene `s` does
what `x` does. If `x` gives a value, the machine gets to the frames `after` over the new scene; if
`x` fails, the machine ends with that failure; unless a limit stops it, and then `x` has done more
than the limits allow. What `x` gives holds `holds`, and the new scene names nothing outside the
tree.

* `Follows.bind`, `follows_mapM`: computations one after the other.
* `tracks_step`: one step of the machine.
-/

namespace ReactiveLang

open Pass

variable {α β : Type} {r : Recall} {p : Program} {pass : Pass} {fuel : Nat} {s s' : Scene}
  {after : α → List Frame} {holds : α → Prop} {c c' : Machine × Streams}
  {x : Option (Except Failure α × Scene)}

/-- The run from `c` over the scene `s` goes as the result of a computation says. -/
inductive Tracks (r : Recall) (p : Program) (pass : Pass) (fuel : Nat) (s : Scene)
    (after : α → List Frame) (holds : α → Prop) (c : Machine × Streams) :
    Option (Except Failure α × Scene) → Prop where
  /-- With more fuel than steps are left, only a limit stops the recursion. -/
  | outOfFuel (limit : p.config.maxSteps < s.steps + fuel → HitsLimit r p pass c) :
      Tracks r p pass fuel s after holds c none
  | stopped {x : Except Failure α} {s' : Scene} (grows : s.Grows s')
      (sound : ∀ a, x = .ok a → s'.InTree p.tree ∧ holds a) (limit : HitsLimit r p pass c)
      (exceeds : s'.Exceeds p.config) : Tracks r p pass fuel s after holds c (some (x, s'))
  | failed {f : Failure} {s' : Scene} (grows : s.Grows s')
      (ends : Ends r p pass .exception f.toValue s' c) :
      Tracks r p pass fuel s after holds c (some (.error f, s'))
  | reached {a : α} {s' : Scene} (c' : Machine × Streams) (grows : s.Grows s')
      (inTree : s'.InTree p.tree) (value : holds a) (there : s'.At r (after a) c')
      (leads : Leads p pass c (settled p pass c')) :
      Tracks r p pass fuel s after holds c (some (.ok a, s'))

/-- What an earlier state leads to. -/
theorem Tracks.earlier {fuel' : Nat} (h : Tracks r p pass fuel s' after holds c' x)
    (hl : Leads p pass c c') (hg : s.Grows s') (hfuel : s.steps + fuel' ≤ s'.steps + fuel) :
    Tracks r p pass fuel' s after holds c x := by
  cases h with
  | outOfFuel limit => exact .outOfFuel fun h => hl.hitsLimit (limit (Nat.lt_of_lt_of_le h hfuel))
  | stopped grows sound limit exceeds =>
    exact .stopped (hg.trans grows) sound (hl.hitsLimit limit) exceeds
  | failed grows ends => exact .failed (hg.trans grows) (hl.ends ends)
  | reached c'' grows inTree value there leads =>
    exact .reached c'' (hg.trans grows) inTree value there (hl.trans leads)

/-- A run that a limit stops, where the computation has gone on beyond the limit. -/
theorem Tracks.limited {fuel' : Nat} (h : Tracks r p pass fuel s' after holds c' x)
    (hl : HitsLimit r p pass c) (hg : s.Grows s') (he : s'.Exceeds p.config) :
    Tracks r p pass fuel' s after holds c x := by
  cases h with
  | outOfFuel => exact .outOfFuel fun _ => hl
  | stopped grows sound => exact .stopped (hg.trans grows) sound hl (grows.exceeds he)
  | failed grows => exact .stopped (hg.trans grows) nofun hl (grows.exceeds he)
  | reached c'' grows inTree value =>
    refine .stopped (hg.trans grows) (fun a ha => ?_) hl (grows.exceeds he)
    cases ha
    exact ⟨inTree, value⟩

/-- From these frames over a scene, the machine does what the computation does. -/
def Follows (r : Recall) (p : Program) (pass : Pass) (fuel : Nat) (x : Direct α) (s : Scene)
    (frames : List Frame) (after : α → List Frame) (holds : α → Prop) : Prop :=
  s.InTree p.tree → ∀ c, s.At r frames c →
    Tracks r p pass fuel s after holds (settled p pass c) (x.runFrom s)

theorem follows_pure {a : α} {frames : List Frame} (ha : holds a) (hf : frames = after a) :
    Follows r p pass fuel (pure a) s frames after holds :=
  fun hs c hc => .reached c (.refl s) hs ha (hf ▸ hc) .refl

theorem Follows.bind {x : Direct α} {f : α → Direct β} {frames : List Frame}
    {after' : β → List Frame} {holds' : β → Prop}
    (hx : Follows r p pass fuel x s frames after holds)
    (hf : ∀ a s', x.runFrom s = some (.ok a, s') → s.Grows s' → holds a →
      Follows r p pass fuel (f a) s' (after a) after' holds') :
    Follows r p pass fuel (x >>= f) s frames after' holds' := by
  intro hs c hc
  have h := hx hs c hc
  rw [Direct.runFrom_bind]
  generalize hgiven : x.runFrom s = given at h ⊢
  cases h with
  | outOfFuel limit => exact .outOfFuel limit
  | @stopped given s' grows sound limit exceeds =>
    cases given with
    | error e => exact .stopped grows nofun limit exceeds
    | ok a =>
      -- the machine has been stopped, but what is computed goes on from some machine's scene
      obtain ⟨hs', ha⟩ := sound a rfl
      obtain ⟨c', hc'⟩ := s'.exists_at r (after a)
      exact (hf a s' hgiven grows ha hs' c' hc').limited limit grows exceeds
  | failed grows ends => exact .failed grows ends
  | @reached a s' c' grows inTree value there leads =>
    exact (hf a s' hgiven grows value inTree c' there).earlier leads grows
      (Nat.add_le_add_right grows.steps fuel)

theorem Follows.mono {x : Direct α} {frames : List Frame} {holds' : α → Prop}
    (h : Follows r p pass fuel x s frames after holds) (himp : ∀ a, holds a → holds' a) :
    Follows r p pass fuel x s frames after holds' := by
  intro hs c hc
  have ht := h hs c hc
  generalize x.runFrom s = given at ht ⊢
  cases ht with
  | outOfFuel limit => exact .outOfFuel limit
  | stopped grows sound limit exceeds =>
    exact .stopped grows (fun a ha => ⟨(sound a ha).1, himp a (sound a ha).2⟩) limit exceeds
  | failed grows ends => exact .failed grows ends
  | reached c' grows inTree value there leads =>
    exact .reached c' grows inTree (himp _ value) there leads

/-- A frame that is done is left, and its value may be remembered. -/
theorem Follows.leave {x : Direct α} {f g : Frame} {rest : List Frame} (hd : g.isDone = true)
    (hv : rest = [] → ∀ position node, f.position = position + 1 →
      f.steps[position]? = some (.finish node) →
        r.allows s.streams.size node (valueOf p pass s g))
    (h : Follows r p pass fuel x s (f.passed 0 [valueOf p pass s g] :: rest) after holds) :
    Follows r p pass fuel x s (g :: f :: rest) after holds := by
  intro hs c hc
  obtain ⟨c', hc', heq⟩ := settled_leave hc hd hv
  rw [heq]
  exact h hs c' hc'

/-- The values of nodes whose code comes one after the other. -/
theorem follows_mapM {eval : NodeId → Direct Value} {code : NodeId → List Step}
    {ok : Value → Prop} {rest : List Frame} {nodes : List NodeId} {f : Frame}
    (heval : ∀ before node later, nodes = before ++ node :: later → ∀ vs s',
      (before.mapM eval).runFrom s = some (.ok vs, s') → ∀ g : Frame, g.Runs (code node) →
        g.evaluation = f.evaluation → Follows r p pass fuel (eval node) s' (g :: rest)
          (fun v => g.passed (code node).length [v] :: rest) ok)
    (hr : f.Runs (nodes.flatMap code)) :
    Follows r p pass fuel (nodes.mapM eval) s (f :: rest)
      (fun vs => f.passed (nodes.flatMap code).length vs.reverse :: rest)
      (fun vs => vs.length = nodes.length ∧ ∀ v ∈ vs, ok v) := by
  induction nodes generalizing f s with
  | nil =>
    rw [List.mapM_nil]
    exact follows_pure ⟨rfl, by simp⟩ rfl
  | cons node nodes ih =>
    rw [List.mapM_cons]
    rw [List.flatMap_cons] at hr
    have hfirst := heval [] node nodes rfl [] s (by rw [List.mapM_nil]; rfl) f hr.left rfl
    refine hfirst.bind fun v s1 hv1 _ hv => ?_
    refine (ih (fun before n later hn vs s' hvs => ?_) (hr.right [v])).bind fun vs s2 _ _ hvs => ?_
    · refine heval (node :: before) n later (by rw [hn]; rfl) (v :: vs) s' ?_
      rw [List.mapM_cons, Direct.runFrom_bind_ok hv1, Direct.runFrom_bind_ok hvs]
      rfl
    · exact follows_pure ⟨by simp [hvs.1], by simpa using ⟨hv, hvs.2⟩⟩ (by simp)

/-! ## One step -/

/-- The effect of the step is a value. -/
theorem tracks_ok {s0 : Scene} (m : Machine) {m' : Machine} {streams : Streams} {a : α}
    (grows : s.Grows s') (inTree : s'.InTree p.tree) (value : holds a)
    (there : s'.At r (after a) (m', streams)) :
    Tracks r p pass fuel s after holds (Machine.conclude (s0.world p pass) m (.ok (m', streams)))
      (some (.ok a, s')) :=
  .reached (m', streams) grows inTree value there .refl

/-- The effect of the step is a failure. -/
theorem tracks_error {s0 : Scene} {m : Machine} (hm : s.Leaves r m) (hs : s0.streams = s.streams)
    (f : Failure) :
    Tracks r p pass fuel s after holds (Machine.conclude (s0.world p pass) m (.error f))
      (some (.error f, s)) :=
  .failed (.refl s) ⟨0, ⟨rfl, rfl, rfl, hm.reactions, hs⟩, fun e he => by
    rw [show (run p pass 0 (Machine.conclude (s0.world p pass) m (.error f))).2 = s.streams from hs]
    exact hm.memo e he⟩

section
variable {f : Frame} {rest : List Frame} {st : Step}

/-- The next step, which may be one too many. -/
theorem settled_leads (hc : s.At r (f :: rest) c) (hn : f.next? = some st) :
    ∃ m, s.spent.At r (f.passed 1 [] :: rest) (m, s.streams) ∧
      (p.config.maxSteps < s.steps + 1 → HitsLimit r p pass (settled p pass c)) ∧
      (¬ p.config.maxSteps < s.steps + 1 → Leads p pass (settled p pass c)
        (Machine.conclude (s.world p pass) m (m.execute (s.world p pass) st))) := by
  rw [settled_of_next? hc hn]
  obtain ⟨m, streams⟩ := c
  obtain rfl : streams = s.streams := hc.streams
  have hm := hc.advanced
  have hnext : m.next? = some st := by
    rw [Machine.next?, hc.frames]
    exact hn
  have hstep : m.step (s.world p pass) = some (st, Machine.conclude (s.world p pass) m.advanced
      (Machine.effect (s.world p pass) m st)) := by
    rw [Machine.step_eq, hnext]
    rfl
  have hleads : Leads p pass (m, s.streams) _ := Leads.step hstep
  have hindex : m.index = s.steps := hc.index
  refine ⟨m.advanced, hm, fun hlt => ?_, fun hle => ?_⟩
  · have he : Machine.effect (s.world p pass) m st = .error ⟨.stepLimit, st.node⟩ :=
      if_pos (by rw [hindex]; exact hlt)
    rw [he] at hleads
    exact hleads.hitsLimit ⟨⟨.stepLimit, st.node⟩, s.spent, rfl, ends_fail hm _⟩
  · have he : Machine.effect (s.world p pass) m st = m.advanced.execute (s.world p pass) st :=
      if_neg (by rw [hindex]; exact hle)
    rw [he] at hleads
    exact hleads

/-- A machine with a next step does what is left to compute, if it does so after the step. -/
theorem tracks_step {fuel' : Nat} (hc : s.At r (f :: rest) c) (hn : f.next? = some st)
    (hfuel : fuel' ≤ fuel + 1)
    (h : ∀ m, s.spent.At r (f.passed 1 [] :: rest) (m, s.streams) →
      Tracks r p pass fuel s.spent after holds
        (Machine.conclude (s.world p pass) m (m.execute (s.world p pass) st)) x) :
    Tracks r p pass fuel' s after holds (settled p pass c) x := by
  obtain ⟨m, hm, hlimit, hleads⟩ := settled_leads (p := p) hc hn
  by_cases hlt : p.config.maxSteps < s.steps + 1
  · exact (h m hm).limited (hlimit hlt) (Scene.grows_spent s) (.inl hlt)
  · refine (h m hm).earlier (hleads hlt) (Scene.grows_spent s) ?_
    show s.steps + fuel' ≤ s.steps + 1 + fuel
    omega

end

end ReactiveLang
