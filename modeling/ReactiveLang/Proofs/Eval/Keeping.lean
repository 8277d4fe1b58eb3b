import ReactiveLang.Proofs.Eval.Steps

/-!
# What a step keeps

If `ok` allows the few handles that a step makes of its own, then every value that a machine holds
still satisfies `ok` after the step: `Machine.execute_holds` for its effect and
`Machine.settle_holds` for the frames that are left.
-/

namespace ReactiveLang.Machine

variable {ok : Handle → Prop} {m : Machine} {w : World} {m' : Machine} {streams : Streams}

/-- `ok` allows what a step of the machine may make, with these streams after it. -/
structure Makes (w : World) (m : Machine) (s : Step) (streams : Streams) (ok : Handle → Prop) :
    Prop where
  node : ∀ node, s = .finish node → Allows w m.evaluations m.current node ok
  opened : ∀ kind node inputs, streams = (openStream w kind node inputs).2 →
    ok (.stream (openStream w kind node inputs).1)
  streams : w.streams.Holds ok
  pass : w.pass.Holds ok

/-- The effect of a step keeps `ok`. -/
theorem execute_holds {s : Step} (h : m.Holds ok) (hk : Makes w m s streams ok)
    (he : m.execute w s = .ok (m', streams)) : m'.Holds ok := by
  refine holds_iff_only.2 ((holds_iff_only.1 h).execute Value.holds_nothing
    (Pass.holds_iff_only.1 hk.pass) (fun node o hs ho => ?_)
    (fun kind node inputs hopen => (Value.holds_stream _).2 (hk.opened kind node inputs hopen)) he)
  exact Outcome.only_of_holds
    (World.outcome_holds (hk.node node hs) hk.streams h.evaluations (h.pop _).1 ho)

/-! ## Leaving frames -/

/-- `ok` allows the instance that a frame may have made. -/
def Gives (ok : Handle → Prop) (m : Machine) (f : Frame) : Prop :=
  ok (.instanceOf ((m.evaluations.find? f.evaluation).getD default).definition f.evaluation)

section
variable (hs : w.streams.Holds ok)
include hs

theorem frameResult_holds {f : Frame} (h : m.Holds ok) (hi : m.Gives ok f)
    (hf : ∀ v ∈ f.values, v.Holds ok) : (m.frameResult w f).Holds ok := by
  unfold frameResult
  split
  · exact h.evaluations.instanceAt _ hi
  · refine World.seen_holds hs ?_
    cases hv : f.values with
    | nil => exact Value.holds_nothing
    | cons v rest => exact hf v (by simp [hv])

/-- A frame that is done hands its value to its caller. -/
theorem returned_holds {f caller : Frame} {rest : List Frame} (h : m.Holds ok) (hi : m.Gives ok f)
    (hf : ∀ v ∈ f.values, v.Holds ok)
    (hrest : ∀ g ∈ caller :: rest, ∀ v ∈ g.values, v.Holds ok) :
    ({ m with frames := caller.push (m.frameResult w f) :: rest } : Machine).Holds ok := by
  refine ⟨fun g hg => ?_, h.evaluations, h.reactions, h.memo⟩
  rcases List.mem_cons.1 hg with rfl | hg
  · intro v hv
    rcases List.mem_cons.1 hv with rfl | hv
    · exact frameResult_holds hs h hi hf
    · exact hrest caller (by simp) v hv
  · exact hrest g (by simp [hg])

omit hs in
theorem rememberCall_holds (h : m.Holds ok) (hne : m.frames ≠ []) (caller : Frame) :
    (m.rememberCall w caller).Holds ok :=
  holds_iff_only.2 ((holds_iff_only.1 h).rememberCall hne caller)

/-- Leaving the frames that are done keeps `ok`. -/
theorem settle_holds (h : m.Holds ok) (hi : ∀ g ∈ m.frames, m.Gives ok g) :
    (m.settle w).Holds ok :=
  holds_iff_only.2 ((holds_iff_only.1 h).settle fun g hg _ hvalues =>
    frameResult_holds hs h (hi g hg) hvalues).1

end
end ReactiveLang.Machine
