import ReactiveLang.Proofs.Eval.Matching
import ReactiveLang.Proofs.Eval.Statements

/-!
# From pass to pass

Two pairs of runs are compared. In the first one a pass that takes values of the pass before runs
beside the same pass that evaluates everything (`Pairing.reusing`). In the second one a node is
evaluated in the pass before and again in the next one (`Pairing.renewing`), where it comes to the
same if its sources are calm: no stream that it reads has got a value in between, and it reads
nothing that depends on the pass itself.

* `Streams.Renews`: the streams of the next pass show calm streams as the pass before has seen them.
* `reusing_laws`, `renewing_laws`: what is to be said of the pairs.
-/

namespace ReactiveLang

/-! ## Streams -/

namespace Streams

variable {ss ss' later : Streams} {pass : Nat}

theorem Alike.visible (h : ss.Alike ss' pass) (id : StreamId) :
    (ss'.find? id).map (·.visible pass) = (ss.find? id).map (·.visible pass) := by
  rcases Nat.lt_or_ge id.index ss.size with hlt | hge
  · obtain ⟨y, hy, -, -, -, hv⟩ := h.there.places id.index _ (Array.getElem?_eq_getElem hlt)
    simp only [find?, hy, Array.getElem?_eq_getElem hlt, Option.map_some, hv pass (Nat.le_refl _)]
  · rw [(h.find?_none hge).1, (h.find?_none hge).2]

theorem Alike.createOrReuse (h : ss.Alike ss' pass) (kind : StreamKind) (creator : NodeId)
    (inputs : List Value) (start : Nat) (config : Config) :
    (ss'.createOrReuse kind creator inputs start config).1 =
        (ss.createOrReuse kind creator inputs start config).1 ∧
      (ss.createOrReuse kind creator inputs start config).2.Alike
        (ss'.createOrReuse kind creator inputs start config).2 pass := by
  have hcreated := h.createdBy? creator
  obtain ⟨id, hid, heq⟩ | ⟨hnone, heq⟩ := ss.createOrReuse_cases kind creator inputs start config
  · obtain ⟨id', hid', heq'⟩ | ⟨hnone', -⟩ :=
      ss'.createOrReuse_cases kind creator inputs start config
    · obtain rfl : id' = id := Option.some.inj (hid'.symm.trans (hcreated.trans hid))
      rw [heq, heq']
      exact ⟨rfl, (Alike.configure ss id' inputs pass).symm.trans
        (h.trans (.configure ss' id' inputs pass))⟩
    · rw [hcreated, hid] at hnone'
      cases hnone'
  · obtain ⟨id', hid', -⟩ | ⟨-, heq'⟩ := ss'.createOrReuse_cases kind creator inputs start config
    · rw [hcreated, hnone] at hid'
      cases hid'
    · rw [heq, heq']
      exact ⟨congrArg StreamId.mk h.size, h.create kind creator inputs inputs start config⟩

theorem extends_createOrReuse (ss : Streams) (kind : StreamKind) (creator : NodeId)
    (inputs : List Value) (start : Nat) (config : Config) (pass : Nat) :
    ss.Extends (ss.createOrReuse kind creator inputs start config).2 pass := by
  obtain ⟨id, -, heq⟩ | ⟨hnone, heq⟩ := ss.createOrReuse_cases kind creator inputs start config
  · exact heq ▸ extends_configure ss id inputs pass
  · exact heq ▸ extends_create hnone kind inputs start config pass

/-- Of the calm streams of the pass before, which had these numbers, the next one sees the same, and
calls find them again. -/
structure Renews (calm : NodeId → Prop) (before next : Nat) (old new : Streams) : Prop where
  creator : ∀ {creator id}, old.createdBy? creator = some id →
    ∃ x, old.find? id = some x ∧ x.creator = creator
  found : ∀ {creator id}, old.createdBy? creator = some id → new.createdBy? creator = some id
  seen : ∀ {id x}, old.find? id = some x → calm x.creator →
    (new.find? id).map (·.visible next) = some (x.visible before)

theorem Renews.extends {calm : NodeId → Prop} {before next : Nat} (h : Renews calm before next ss ss')
    (he : ss'.Extends later next) : Renews calm before next ss later := by
  refine ⟨h.creator, fun hid => he.createdBy? (h.found hid), fun {id x} hx hc => ?_⟩
  have hseen := h.seen hx hc
  obtain ⟨y, hy, hv⟩ := Option.map_eq_some_iff.1 hseen
  obtain ⟨z, hz, -, -, -, hsame⟩ := he.places id.index y hy
  rw [← hseen, show later.find? id = some z from hz, hy, Option.map_some, Option.map_some,
    hsame next (Nat.le_refl _)]

end Streams

namespace Direct.Pairing

open Analysis

variable {p : Program} {pass pass' : Pass}

/-! ## With and without the values of the pass before -/

section
variable (p : Program) (pass : Pass) (reuse : NodeId → Option Value) (streams : Streams)
  (root : Evaluation → Prop) (inside : NodeId → Prop) (allowed : String → Prop)

/-- The pass takes values of the pass before, beside the pass that takes none; both have begun with
these streams. -/
def reusing : Pairing p where
  left := pass
  right := pass
  reuse
  same := True
  calm := fun _ => True
  known := fun _ => True
  room := fun _ => True
  streams := fun ss ss' => ss.Regular ∧ ss.Alike ss' pass.number ∧
    streams.Extends ss' pass.number ∧ ss'.Regular
  reactions := Eq
  root
  inside
  allowed

variable {p pass reuse streams root inside allowed}

theorem reusing_laws (hkept : ∀ e ∈ pass.reactions, e.2.Holds (Handle.Simple fun _ => True))
    (hnames : Names p.tree inside allowed)
    (hgains : ∀ {e name} v, root e → allowed name → root (e.bind name v))
    (hreused : ∀ {node v}, reuse node = some v → inside node → p.tree.Reaches node →
      p.tree.home node = p.tree.root → ∀ {s s'},
        (reusing p pass reuse streams root inside allowed).Meets .root .root s s' →
          ∃ s1, Eventually (fun k => evaluate p pass (fun _ => none) k 1 .root node) s' (.ok v, s1) ∧
            v.Holds (Handle.Simple fun _ => True) ∧ p.analysis.Typed node v ∧
              (reusing p pass reuse streams root inside allowed).Meets .root .root s s1) :
    (reusing p pass reuse streams root inside allowed).Laws where
  equal := fun _ => rfl
  quiet := fun _ _ => trivial
  room := fun _ _ => trivial
  regular := fun h => h.1
  seen := fun h _ => h.2.1.visible _
  opened := fun {ss ss' creator} kind inputs h _ _ => by
    obtain ⟨hid, halike⟩ := h.2.1.createOrReuse kind creator inputs pass.number p.config
    exact ⟨hid, ⟨h.1.createOrReuse _ _ _ _ _, halike,
      h.2.2.1.trans (Streams.extends_createOrReuse _ _ _ _ _ _ _),
      h.2.2.2.createOrReuse _ _ _ _ _⟩, trivial⟩
  reacted := fun _ {rs rs'} node v h => congrArg (Keyed.insert node v) (show rs = rs' from h)
  kept := fun _ => hkept
  names := hnames
  gains := hgains
  reused := hreused

end

/-! ## In the pass before and in the next one -/

section
variable (p : Program) (pass pass' : Pass) (streams now : Streams)
  (reactions : List (NodeId × Value))

/-- The source reads the same in the next pass as in the pass before. -/
def Calm (p : Program) (pass' : Pass) (source : NodeId) : Prop :=
  source ∉ pass'.changedCreators ∧ Machine.isPassDependent p.tree source = false

/-- The stream was there in the pass before, and its call is calm. -/
def Known (p : Program) (pass' : Pass) (streams : Streams) (id : StreamId) : Prop :=
  ∃ x, streams.find? id = some x ∧ Calm p pass' x.creator

/-- A node is evaluated in the pass before, which had these streams and made no others, and in the
next one, which has come to other streams and reactions by now. -/
def renewing : Pairing p where
  left := pass
  right := pass'
  reuse := fun _ => none
  same := False
  calm := Calm p pass'
  known := Known p pass' streams
  room := fun n => n ≤ streams.size
  streams := fun ss ss' =>
    ss.Regular ∧ streams.Alike ss pass.number ∧ now.Alike ss' pass'.number
  reactions := fun _ rs => rs = reactions
  root := fun _ => True
  inside := fun _ => True
  allowed := fun _ => True

variable {p pass pass' streams now reactions}

theorem renewing_laws (h : Streams.Renews (Calm p pass') pass.number pass'.number streams now) :
    (renewing p pass pass' streams now reactions).Laws where
  equal := False.elim
  quiet := fun {id} hcalm hdependent => by
    rw [hcalm.2] at hdependent
    cases hdependent
  room := Nat.le_trans
  regular := fun h => h.1
  seen := fun {ss ss' id} hs hknown => by
    obtain ⟨x, hx, hcalm⟩ := hknown
    show (ss'.find? id).map (·.visible pass'.number) = (ss.find? id).map (·.visible pass.number)
    rw [hs.2.2.visible id, h.seen hx hcalm, hs.2.1.visible id, hx]
    rfl
  opened := fun {ss ss' creator} kind inputs hs hcalm hroom => by
    have hcreated := hs.2.1.createdBy? creator
    obtain ⟨id, hid, heq⟩ | ⟨-, heq⟩ :=
      ss.createOrReuse_cases kind creator inputs pass.number p.config
    · have hold : streams.createdBy? creator = some id := hcreated.symm.trans hid
      obtain ⟨x, hx, rfl⟩ := h.creator hold
      have hnew : ss'.createdBy? x.creator = some id :=
        (hs.2.2.createdBy? _).trans (h.found hold)
      have heq' : ss'.createOrReuse kind x.creator inputs pass'.number p.config =
          (id, ss'.configure id inputs) := by
        rw [Streams.createOrReuse, hnew]
      show (ss'.createOrReuse kind x.creator inputs pass'.number p.config).1 =
        (ss.createOrReuse kind x.creator inputs pass.number p.config).1 ∧ _ ∧ _
      dsimp only [renewing]
      rw [heq, heq']
      exact ⟨rfl, ⟨hs.1.configure id inputs, hs.2.1.trans (.configure ss id inputs _),
        hs.2.2.trans (.configure ss' id inputs _)⟩, x, hx, hcalm⟩
    · -- a new stream would be one more
      have hmore : (ss.createOrReuse kind creator inputs pass.number p.config).2.size ≤
          streams.size := hroom
      have hsize := hs.2.1.size
      rw [heq, show (ss.create kind creator inputs pass.number p.config).2.size = ss.size + 1 from
        Array.size_push _] at hmore
      omega
  reacted := False.elim
  kept := False.elim
  names := names_all p.tree
  gains := fun _ _ _ => trivial
  reused := fun h => nomatch h

end

end Direct.Pairing
end ReactiveLang
