import ReactiveLang.Analysis.Query
import ReactiveLang.Proofs.Analysis.Derivation
import ReactiveLang.Proofs.Syntax.Finished

/-!
# Types that are recalled

* `run_recallType`: all that asking a context for a type can do.
* `recallType_total`: it never runs out of fuel, as no node is visited within itself.
* `recallType_sound`: a context notes no types but those that nodes derive, since a type that was
  determined without cutting a cycle is a derived one.
* `recallType_derived`: a node that derives a type gets it, whatever is noted, unless a node being
  visited has a derivation as short.
* `recallType_agrees`: where no node being visited derives a type, the answer is the same in all
  contexts.
-/

namespace ReactiveLang

variable {α β : Type} {t : Tree} {a : Analysis} {c c' : Context}

/-! ## Computations over a context -/

theorem Consulting.run_bind {work : Consulting α} {rest : α → Consulting β} {b : β} :
    (work >>= rest).run c = some (b, c') ↔
      ∃ v now, work.run c = some (v, now) ∧ (rest v).run now = some (b, c') := by
  constructor
  · intro h
    obtain ⟨⟨v, now⟩, hwork, hrest⟩ := Option.bind_eq_some_iff.1 h
    exact ⟨v, now, hwork, hrest⟩
  · rintro ⟨v, now, hwork, hrest⟩
    exact Option.bind_eq_some_iff.2 ⟨(v, now), hwork, hrest⟩

namespace Context

/-- An answer that is known is taken, and another is worked out and kept. -/
theorem run_recalling {known : Context → Option α} {keep : Context → α → Context}
    {work : Consulting α} : (recalling known keep work).run c =
      match known c with
      | some v => some (v, c)
      | none => (work.run c).map fun r => (r.1, keep r.2 r.1) := by
  cases hc : known c with
  | some v => simp [recalling, hc]
  | none =>
    simp only [recalling, StateT.run_bind, StateT.run_get, hc, Option.pure_def,
      Option.bind_eq_bind, Option.bind_some]
    cases work.run c <;> rfl

/-- What the context has noted is right: its types are derived, and everything else is as an
analysis has it. -/
structure Sound (t : Tree) (a : Analysis) (c : Context) : Prop where
  types : ∀ id type, c.types.find? id = some type → ∃ k, t.DerivesIn k id type
  resolutions : ∀ id found, c.resolutions.find? id = some found → found = t.resolve id
  references : ∀ found, c.references = some found → found = a.readings
  dependencies : ∀ id found, c.dependencies.find? id = some found → found = a.streamDependencies id
  conflicts : ∀ id found, c.conflicts.find? id = some found → found = a.conflictsOf id

theorem sound_fresh {size : Nat} : (fresh size).Sound t a where
  types id type h := by simp [fresh] at h
  resolutions id found h := by simp [fresh] at h
  references found h := by simp [fresh] at h
  dependencies id found h := by simp [fresh] at h
  conflicts id found h := by simp [fresh] at h

theorem Sound.countCycle (h : c.Sound t a) : c.countCycle.Sound t a :=
  ⟨h.types, h.resolutions, h.references, h.dependencies, h.conflicts⟩

theorem Sound.noteType (h : c.Sound t a) {id : NodeId} {type : Ty} {k : Nat}
    (hd : t.DerivesIn k id type) : (c.noteType id type).Sound t a where
  types other found hf := by
    rcases Notes.find?_record hf with ⟨rfl, rfl⟩ | hf
    · exact ⟨k, hd⟩
    · exact h.types other found hf
  resolutions := h.resolutions
  references := h.references
  dependencies := h.dependencies
  conflicts := h.conflicts

theorem Sound.noteResolution (h : c.Sound t a) {id : NodeId} :
    (c.noteResolution id (t.resolve id)).Sound t a where
  types := h.types
  resolutions other found hf := by
    rcases Notes.find?_record hf with ⟨rfl, rfl⟩ | hf
    · rfl
    · exact h.resolutions other found hf
  references := h.references
  dependencies := h.dependencies
  conflicts := h.conflicts

/-- From one sound context to another, and what is known if no cycle was cut on the way. -/
structure Advances (t : Tree) (a : Analysis) (c c' : Context) (acyclic : Prop) : Prop where
  sound : c'.Sound t a
  cycles : c.cycles ≤ c'.cycles
  acyclic : c'.cycles = c.cycles → acyclic

theorem Advances.trans {P Q R : Prop} {c₁ c₂ c₃ : Context} (h : Advances t a c₁ c₂ P)
    (h' : Advances t a c₂ c₃ Q) (himp : P → Q → R) : Advances t a c₁ c₃ R where
  sound := h'.sound
  cycles := Nat.le_trans h.cycles h'.cycles
  acyclic he := by
    have hle := h.cycles
    have hle' := h'.cycles
    exact himp (h.acyclic (by omega)) (h'.acyclic (by omega))

theorem run_resolve (hc : c.Sound t a) (reference : NodeId) :
    ∃ c', (resolve t reference).run c = some (t.resolve reference, c') ∧
      Advances t a c c' True := by
  rw [resolve, run_recalling]
  cases hf : c.resolutions.find? reference with
  | some found =>
    obtain rfl := hc.resolutions reference found hf
    exact ⟨c, rfl, hc, Nat.le_refl _, fun _ => trivial⟩
  | none =>
    exact ⟨c.noteResolution reference (t.resolve reference), rfl, hc.noteResolution,
      Nat.le_refl _, fun _ => trivial⟩

end Context

/-! ## Following an inquiry -/

namespace Inquiry

open Context

variable {types : NodeId → Consulting Ty} {x : Inquiry α} {v v' : α}

theorem run_follow_typeOf {id : NodeId} {next : Ty → Inquiry α} :
    ((typeOf id next).follow types (Context.resolve t)).run c = some (v, c') ↔
      ∃ type now, (types id).run c = some (type, now) ∧
        ((next type).follow types (Context.resolve t)).run now = some (v, c') :=
  Consulting.run_bind

/-- A definition that is asked for is the one that the tree has. -/
theorem run_follow_resolve (hc : c.Sound t a) {reference : NodeId}
    {next : Option Definition → Inquiry α} :
    ∃ now, Advances t a c now True ∧
      ((resolve reference next).follow types (Context.resolve t)).run c =
        ((next (t.resolve reference)).follow types (Context.resolve t)).run now := by
  obtain ⟨now, hrun, hadv⟩ := run_resolve hc reference
  refine ⟨now, hadv, ?_⟩
  simp only [follow, StateT.run_bind, hrun, Option.bind_eq_bind, Option.bind_some]

/-- An inquiry is followed to its end when every type comes. -/
theorem follow_total (htypes : ∀ id c, ∃ r, (types id).run c = some r) (c : Context) :
    ∃ r, (x.follow types (Context.resolve t)).run c = some r := by
  induction x generalizing c with
  | answer value => exact ⟨(value, c), rfl⟩
  | typeOf id next ih =>
    obtain ⟨⟨type, now⟩, hrun⟩ := htypes id c
    obtain ⟨⟨v, c'⟩, hnext⟩ := ih type now
    exact ⟨(v, c'), run_follow_typeOf.2 ⟨type, now, hrun, hnext⟩⟩
  | resolve reference next ih =>
    simp only [follow, StateT.run_bind, Context.resolve, run_recalling, Option.bind_eq_bind]
    cases c.resolutions.find? reference with
    | some found => exact ih found c
    | none => exact ih (t.resolve reference) (c.noteResolution reference (t.resolve reference))

/-- If no cycle is cut, the answer is drawn from derived types. -/
theorem follow_sound
    (htypes : ∀ id type c c', c.Sound t a → (types id).run c = some (type, c') →
      Advances t a c c' (∃ k, t.DerivesIn k id type))
    (hc : c.Sound t a) (h : (x.follow types (Context.resolve t)).run c = some (v, c')) :
    Advances t a c c' (∃ k, x.Concludes t (t.DerivesIn k) v) := by
  induction x generalizing c with
  | answer value =>
    obtain ⟨rfl, rfl⟩ : value = v ∧ c = c' := by simpa [follow] using h
    exact ⟨hc, Nat.le_refl _, fun _ => ⟨0, rfl⟩⟩
  | typeOf id next ih =>
    obtain ⟨type, now, hrun, hnext⟩ := run_follow_typeOf.1 h
    have hadv := htypes id type c now hc hrun
    refine hadv.trans (ih type hadv.sound hnext) ?_
    rintro ⟨k, hk⟩ ⟨l, hl⟩
    refine ⟨max k l, type, hk.mono (Nat.le_max_left k l), hl.mono fun _ _ hd => ?_⟩
    exact hd.mono (Nat.le_max_right k l)
  | resolve reference next ih =>
    obtain ⟨now, hadv, hrun⟩ := run_follow_resolve hc
    rw [hrun] at h
    exact hadv.trans (ih (t.resolve reference) hadv.sound h) fun _ hcon => hcon

/-- An inquiry that known types conclude ends with that answer where these types come. -/
theorem follow_concludes {known : NodeId → Ty → Prop} (hcon : x.Concludes t known v)
    (htypes : ∀ id type type' c c', known id type → c.Sound t a →
      (types id).run c = some (type', c') → type' = type ∧ c'.Sound t a)
    (hc : c.Sound t a) (h : (x.follow types (Context.resolve t)).run c = some (v', c')) :
    v' = v := by
  induction x generalizing c with
  | answer value =>
    obtain ⟨rfl, -⟩ : value = v' ∧ c = c' := by simpa [follow] using h
    exact hcon
  | typeOf id next ih =>
    obtain ⟨type, hknown, hnext⟩ := hcon
    obtain ⟨type', now, hrun, hrest⟩ := run_follow_typeOf.1 h
    obtain ⟨rfl, hnow⟩ := htypes id type type' c now hknown hc hrun
    exact ih type' hnext hnow hrest
  | resolve reference next ih =>
    obtain ⟨now, hadv, hrun⟩ := run_follow_resolve hc
    rw [hrun] at h
    exact ih (t.resolve reference) hcon hadv.sound h

/-- Two contexts come to one answer where they agree on the types that are asked for. -/
theorem follow_agrees {types' : NodeId → Consulting Ty} {c₁ c₂ : Context}
    (htypes : ∀ id type type' c₁ c₂ c₁' c₂', c₁.Sound t a → c₂.Sound t a →
      (types id).run c₁ = some (type, c₁') → (types' id).run c₂ = some (type', c₂') →
      type = type' ∧ c₁'.Sound t a ∧ c₂'.Sound t a)
    (h₁ : c₁.Sound t a) (h₂ : c₂.Sound t a) {c₁' c₂' : Context}
    (hrun₁ : (x.follow types (Context.resolve t)).run c₁ = some (v, c₁'))
    (hrun₂ : (x.follow types' (Context.resolve t)).run c₂ = some (v', c₂')) : v = v' := by
  induction x generalizing c₁ c₂ with
  | answer value =>
    obtain ⟨rfl, -⟩ : value = v ∧ c₁ = c₁' := by simpa [follow] using hrun₁
    obtain ⟨rfl, -⟩ : value = v' ∧ c₂ = c₂' := by simpa [follow] using hrun₂
    rfl
  | typeOf id next ih =>
    obtain ⟨type, now₁, htype₁, hnext₁⟩ := run_follow_typeOf.1 hrun₁
    obtain ⟨type', now₂, htype₂, hnext₂⟩ := run_follow_typeOf.1 hrun₂
    obtain ⟨rfl, hnow₁, hnow₂⟩ := htypes id type type' _ _ _ _ h₁ h₂ htype₁ htype₂
    exact ih type hnow₁ hnow₂ hnext₁ hnext₂
  | resolve reference next ih =>
    obtain ⟨now₁, hadv₁, he₁⟩ := run_follow_resolve h₁
    obtain ⟨now₂, hadv₂, he₂⟩ := run_follow_resolve h₂
    rw [he₁] at hrun₁
    rw [he₂] at hrun₂
    exact ih (t.resolve reference) hadv₁.sound hadv₂.sound hrun₁ hrun₂

end Inquiry

/-! ## Recalling a type -/

/-- After the type of a node was determined, it is noted unless a cycle was cut. -/
def Context.settled (before : Context) (id : NodeId) (type : Ty) (now : Context) : Context :=
  if now.cycles = before.cycles then now.noteType id type else now

namespace Tree

open Context

variable {fuel k : Nat} {visiting : List NodeId} {id : NodeId} {type type' : Ty}

theorem run_recallType : (t.recallType (fuel + 1) visiting id).run c =
    match c.types.find? id with
    | some type => some (type, c)
    | none =>
      if visiting.contains id then some (.unknown .cycle, c.countCycle)
      else
        (((Inquiry.typeRule t id).follow (t.recallType fuel (id :: visiting))
          (Context.resolve t)).run c).map fun r => (r.1, c.settled id r.1 r.2) := by
  cases hf : c.types.find? id with
  | some type => simp [recallType, hf]
  | none =>
    simp only [recallType, StateT.run_bind, StateT.run_get, hf, Option.pure_def,
      Option.bind_eq_bind, Option.bind_some]
    by_cases hv : visiting.contains id
    · simp only [hv, ↓reduceIte]
      rfl
    · simp only [hv, Bool.false_eq_true, ↓reduceIte, StateT.run_bind, StateT.run_get,
        Option.pure_def, Option.bind_eq_bind, Option.bind_some]
      cases ((Inquiry.typeRule t id).follow (t.recallType fuel (id :: visiting))
        (Context.resolve t)).run c with
      | none => rfl
      | some r =>
        simp only [Option.bind_some, Option.map_some, settled]
        split <;> rfl

/-- A type that comes is noted already, or cuts a cycle, or the rule gives it. -/
theorem recallType_cases
    (h : (t.recallType (fuel + 1) visiting id).run c = some (type, c')) :
    (c.types.find? id = some type ∧ c' = c) ∨
    (c.types.find? id = none ∧ id ∈ visiting ∧ type = .unknown .cycle ∧ c' = c.countCycle) ∨
    (c.types.find? id = none ∧ id ∉ visiting ∧ ∃ now,
      ((Inquiry.typeRule t id).follow (t.recallType fuel (id :: visiting))
        (Context.resolve t)).run c = some (type, now) ∧ c' = c.settled id type now) := by
  rw [run_recallType] at h
  split at h
  · rename_i noted hf
    obtain ⟨rfl, rfl⟩ : noted = type ∧ c = c' := by simpa using h
    exact .inl ⟨hf, rfl⟩
  · rename_i hf
    split at h
    · rename_i hv
      obtain ⟨rfl, rfl⟩ : Ty.unknown .cycle = type ∧ c.countCycle = c' := by simpa using h
      exact .inr (.inl ⟨hf, by simpa using hv, rfl, rfl⟩)
    · rename_i hv
      obtain ⟨⟨v, now⟩, hrun, he⟩ := Option.map_eq_some_iff.1 h
      obtain ⟨rfl, rfl⟩ : v = type ∧ c.settled id v now = c' := by simpa using he
      exact .inr (.inr ⟨hf, by simpa using hv, now, hrun, rfl⟩)

/-- A node outside the store asks for nothing. -/
theorem typeRule_outside (h : t.nodes.size ≤ id.index) :
    Inquiry.typeRule t id = .answer .nothing := by
  rw [Inquiry.typeRule, construct_eq_nothing h]
  rfl

/-- The nodes being visited are different nodes of the store, so the fuel outlasts them. -/
theorem recallType_total (hnodup : visiting.Nodup)
    (hin : ∀ v ∈ visiting, v.index < t.nodes.size)
    (hfuel : visiting.length + fuel = t.typingFuel) (id : NodeId) (c : Context) :
    ∃ r, (t.recallType fuel visiting id).run c = some r := by
  induction fuel generalizing visiting id c with
  | zero =>
    have hle := length_le_of_nodup hnodup hin
    simp only [typingFuel] at hfuel
    omega
  | succ fuel ih =>
    rw [run_recallType]
    cases c.types.find? id with
    | some type => exact ⟨_, rfl⟩
    | none =>
      by_cases hv : id ∈ visiting
      · exact ⟨(.unknown .cycle, c.countCycle), by simp [hv]⟩
      · suffices hrun : ∃ r, ((Inquiry.typeRule t id).follow (t.recallType fuel (id :: visiting))
            (Context.resolve t)).run c = some r by
          obtain ⟨r, hr⟩ := hrun
          exact ⟨(r.1, c.settled id r.1 r.2), by simp [hv, hr]⟩
        rcases Nat.lt_or_ge id.index t.nodes.size with hlt | hge
        · refine Inquiry.follow_total (fun other now => ?_) c
          refine ih (List.nodup_cons.2 ⟨hv, hnodup⟩) (fun v hm => ?_) ?_ other now
          · rcases List.mem_cons.1 hm with rfl | hm
            · exact hlt
            · exact hin v hm
          · rw [List.length_cons]
            omega
        · rw [typeRule_outside hge]
          exact ⟨_, rfl⟩

theorem recallType_sound (hc : c.Sound t a)
    (h : (t.recallType fuel visiting id).run c = some (type, c')) :
    Advances t a c c' (∃ k, t.DerivesIn k id type) := by
  induction fuel generalizing visiting id type c c' with
  | zero => cases h
  | succ fuel ih =>
    rcases recallType_cases h with ⟨hf, rfl⟩ | ⟨-, -, -, rfl⟩ | ⟨-, -, now, hrun, rfl⟩
    · exact ⟨hc, Nat.le_refl _, fun _ => hc.types id type hf⟩
    · exact ⟨hc.countCycle, Nat.le_succ _, fun he => absurd he (Nat.succ_ne_self _)⟩
    · have hadv := Inquiry.follow_sound (fun _ _ _ _ hs => ih hs) hc hrun
      have hderived : now.cycles = c.cycles → ∃ k, t.DerivesIn k id type := fun he =>
        have ⟨k, hk⟩ := hadv.acyclic he
        ⟨k + 1, hk⟩
      unfold settled
      split
      · rename_i he
        obtain ⟨k, hk⟩ := hderived he
        exact ⟨hadv.sound.noteType hk, hadv.cycles, hderived⟩
      · exact ⟨hadv.sound, hadv.cycles, hderived⟩

/-- The derivation of a node visits nodes with shorter derivations only, so it meets none of those
being visited. -/
theorem recallType_derived (hd : t.DerivesIn k id type)
    (hfree : ∀ v ∈ visiting, ∀ type, ¬ t.DerivesIn k v type) (hc : c.Sound t a)
    (h : (t.recallType fuel visiting id).run c = some (type', c')) : type' = type := by
  induction fuel generalizing visiting id type type' c c' k with
  | zero => cases h
  | succ fuel ih =>
    obtain ⟨l, hl, hlast, hshorter⟩ := hd.shortest
    rcases recallType_cases h with ⟨hf, rfl⟩ | ⟨-, hv, -, -⟩ | ⟨-, -, now, hrun, rfl⟩
    · obtain ⟨m, hm⟩ := hc.types id type' hf
      exact hm.unique hd
    · exact absurd hd (hfree id hv type)
    · have hbelow : ∀ v ∈ id :: visiting, ∀ type, ¬ t.DerivesIn l v type := by
        intro v hv type hdv
        rcases List.mem_cons.1 hv with rfl | hv
        · exact hshorter type hdv
        · exact hfree v hv type (hdv.mono (Nat.le_of_lt hl))
      refine Inquiry.follow_concludes hlast (fun _ _ _ _ _ hknown hs hr => ?_) hc hrun
      exact ⟨ih hknown hbelow hs hr, (recallType_sound hs hr).sound⟩

/-- Where every node being visited depends on itself, what is noted makes no difference. -/
theorem recallType_agrees (hfree : ∀ v ∈ visiting, ∀ k type, ¬ t.DerivesIn k v type)
    {c₁ c₂ c₁' c₂' : Context} (h₁ : c₁.Sound t a) (h₂ : c₂.Sound t a)
    (hrun₁ : (t.recallType fuel visiting id).run c₁ = some (type, c₁'))
    (hrun₂ : (t.recallType fuel visiting id).run c₂ = some (type', c₂')) : type = type' := by
  induction fuel generalizing visiting id type type' c₁ c₂ c₁' c₂' with
  | zero => cases hrun₁
  | succ fuel ih =>
    by_cases hd : ∃ k derived, t.DerivesIn k id derived
    · obtain ⟨k, derived, hd⟩ := hd
      have hfree := fun v hv => hfree v hv k
      rw [recallType_derived hd hfree h₁ hrun₁, recallType_derived hd hfree h₂ hrun₂]
    · have hunnoted : ∀ {c : Context} {noted : Ty}, c.Sound t a →
          c.types.find? id ≠ some noted := fun hc hf =>
        have ⟨k, hk⟩ := hc.types id _ hf
        hd ⟨k, _, hk⟩
      -- Neither context has the type, so both cut a cycle here or both follow the rule.
      rcases recallType_cases hrun₁ with ⟨hf, -⟩ | ⟨-, hv, rfl, -⟩ | ⟨-, hv, now₁, hrule₁, -⟩
      · exact absurd hf (hunnoted h₁)
      · rcases recallType_cases hrun₂ with ⟨hf, -⟩ | ⟨-, -, rfl, -⟩ | ⟨-, hv', -⟩
        · exact absurd hf (hunnoted h₂)
        · rfl
        · exact absurd hv hv'
      · rcases recallType_cases hrun₂ with ⟨hf, -⟩ | ⟨-, hv', -⟩ | ⟨-, -, now₂, hrule₂, -⟩
        · exact absurd hf (hunnoted h₂)
        · exact absurd hv' hv
        · have hfree' : ∀ v ∈ id :: visiting, ∀ k type, ¬ t.DerivesIn k v type := by
            intro v hv k type hdv
            rcases List.mem_cons.1 hv with rfl | hv
            · exact hd ⟨k, type, hdv⟩
            · exact hfree v hv k type hdv
          refine Inquiry.follow_agrees (fun _ _ _ _ _ _ _ hs₁ hs₂ hr₁ hr₂ => ?_) h₁ h₂ hrule₁ hrule₂
          exact ⟨ih hfree' hs₁ hs₂ hr₁ hr₂, (recallType_sound hs₁ hr₁).sound,
            (recallType_sound hs₂ hr₂).sound⟩

end Tree
end ReactiveLang
