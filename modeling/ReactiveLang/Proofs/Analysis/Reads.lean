import Mathlib.Data.List.Sort
import ReactiveLang.Proofs.Analysis.Refining
import ReactiveLang.Proofs.Syntax.Beneath

/-!
# What a node reads

What a node may read is beneath it, or beneath what that refers to, and so on. The walk that
collects it looks at each definition once, so it comes to an end also where definitions refer to each
other, and what it has found then is all there is.

* `Analysis.Source`, `Analysis.RefersTo`: what is collected, and what is followed.
* `Analysis.Reads`: the least set of nodes with those beneath the node and, for each of them, those
  beneath what it refers to.
* `Analysis.Walking`: where the walk has been, all that is found there is collected or pending.
* `Analysis.streamDependencies_reads`: the dependencies of a node are the sources that it reads.
-/

namespace ReactiveLang.Analysis

open Inquiry (lead? leads collectReads)

variable (a : Analysis)

/-! ## Sources and references -/

/-- The node makes a stream, keeps a value from pass to pass, or tests what has changed. -/
inductive Source : NodeId → Prop where
  | stream {id : NodeId} {kind : StreamKind} : a.callee id = some (.stream kind) → Source id
  | reaction {id initial condition next : NodeId} :
      a.tree.construct id = .reaction initial condition next → Source id
  | changed {id stream : NodeId} : a.tree.construct id = .changed stream → Source id

/-- The node refers to a definition: by a name, as a property, as what it calls, or as the
conversion that it uses. -/
inductive RefersTo : NodeId → NodeId → Prop where
  | reference {id definition : NodeId} {found : Definition} : a.tree.resolve id = some found →
      found.node? = some definition → RefersTo id definition
  | property {id member : NodeId} : a.memberOf id = some member → RefersTo id member
  | function {id definition : NodeId} :
      a.callee id = some (.function definition) → RefersTo id definition
  | structureDef {id definition : NodeId} :
      a.callee id = some (.structureDef definition) → RefersTo id definition
  | conversion {id expression definition : NodeId} {target : Annotation} {type : Ty} :
      a.tree.construct id = .convert expression target →
      a.tree.conversion? (a.valueType expression) (a.tree.annotationType id target) id =
        some ⟨.defined definition, type⟩ → RefersTo id definition

/-- The least set of nodes with those beneath the node and, for each of them, those beneath what it
refers to. -/
inductive Reads (id : NodeId) : NodeId → Prop where
  | beneath {node : NodeId} : a.tree.Above id node → Reads id node
  | follow {node definition other : NodeId} : Reads id node → a.RefersTo node definition →
      a.tree.Above definition other → Reads id other

variable {a} {id definition : NodeId}

/-- Only a call calls something. -/
theorem construct_of_callee {callee : Callee} (h : a.callee id = some callee) :
    ∃ function inputs, a.tree.construct id = .call function inputs := by
  unfold Analysis.callee Inquiry.callee at h
  split at h
  · exact ⟨_, _, ‹_›⟩
  · cases h

theorem construct_of_memberOf {member : NodeId} (h : a.memberOf id = some member) :
    ∃ subject name, a.tree.construct id = .property subject name := by
  unfold memberOf Inquiry.memberOf at h
  split at h
  · exact ⟨_, _, ‹_›⟩
  · cases h

theorem construct_of_resolve {t : Tree} {found : Definition} (h : t.resolve id = some found) :
    ∃ name, t.construct id = .reference name := by
  unfold Tree.resolve at h
  split at h
  · exact ⟨_, ‹_›⟩
  · cases h

/-- Where a call leads is said by what it calls. -/
theorem given_lead_call {function : NodeId} {inputs : List NodeId}
    (hc : a.tree.construct id = .call function inputs) : a.given (lead? a.tree id) =
      match a.callee id with
      | some (.stream _) => some .read
      | some (.function definition) => some (.definition definition)
      | some (.structureDef definition) => some (.definition definition)
      | _ => none := by
  rw [lead?, hc]
  dsimp only
  rw [given_bind, Analysis.callee]
  generalize a.given (Inquiry.callee a.tree id) = found
  rcases found with _ | found
  · rfl
  · cases found <;> rfl

theorem given_lead_convert {expression : NodeId} {target : Annotation}
    (hc : a.tree.construct id = .convert expression target) : a.given (lead? a.tree id) =
      match a.tree.conversion? (a.valueType expression) (a.tree.annotationType id target) id with
      | some ⟨.defined definition, _⟩ => some (.definition definition)
      | _ => none := by
  rw [lead?, hc]
  dsimp only
  rw [given_bind, Inquiry.conversionTarget?, hc]
  dsimp only
  rw [given_bind, valueType]
  generalize a.tree.conversion? _ _ _ = found
  rcases found with _ | ⟨conversion, type⟩
  · rfl
  · cases conversion <;> rfl

theorem given_lead_reference {name : String} (hc : a.tree.construct id = .reference name) :
    a.given (lead? a.tree id) =
      ((a.tree.resolve id).bind Definition.node?).map Lead.definition := by
  rw [lead?, hc]
  dsimp only
  rw [Inquiry.referent?, hc]
  rfl

theorem given_lead_property {subject : NodeId} {name : String}
    (hc : a.tree.construct id = .property subject name) :
    a.given (lead? a.tree id) = (a.memberOf id).map Lead.definition := by
  rw [lead?, hc]
  dsimp only
  rw [Inquiry.referent?, hc]
  dsimp only
  rw [given_bind, memberOf]
  rfl

/-- All that a node can lead to: a read by itself if it is a source, or a definition that it refers
to. -/
theorem lead_cases {lead : Lead} (h : a.given (lead? a.tree id) = some lead) :
    (lead = .read ∧ a.Source id) ∨
      ∃ definition, lead = .definition definition ∧ a.RefersTo id definition := by
  cases hc : a.tree.construct id with
  | call function inputs =>
    rw [given_lead_call hc] at h
    split at h
    · cases h
      exact .inl ⟨rfl, .stream ‹_›⟩
    · cases h
      exact .inr ⟨_, rfl, .function ‹_›⟩
    · cases h
      exact .inr ⟨_, rfl, .structureDef ‹_›⟩
    · cases h
  | convert =>
    rw [given_lead_convert hc] at h
    split at h
    · cases h
      exact .inr ⟨_, rfl, .conversion hc ‹_›⟩
    · cases h
  | reference =>
    rw [given_lead_reference hc] at h
    obtain ⟨node, hnode, rfl⟩ := Option.map_eq_some_iff.1 h
    obtain ⟨found, hfound, hnode⟩ := Option.bind_eq_some_iff.1 hnode
    exact .inr ⟨node, rfl, .reference hfound hnode⟩
  | property =>
    rw [given_lead_property hc] at h
    obtain ⟨member, hm, rfl⟩ := Option.map_eq_some_iff.1 h
    exact .inr ⟨member, rfl, .property hm⟩
  | reaction =>
    rw [lead?, hc] at h
    cases h
    exact .inl ⟨rfl, .reaction hc⟩
  | changed =>
    rw [lead?, hc] at h
    cases h
    exact .inl ⟨rfl, .changed hc⟩
  | _ =>
    rw [lead?, hc] at h
    dsimp only at h
    rw [Inquiry.referent?, hc] at h
    cases h

/-- A node leads to a read by itself when it is a source. -/
theorem given_lead_read_iff : a.given (lead? a.tree id) = some .read ↔ a.Source id := by
  constructor
  · intro h
    obtain ⟨-, hsource⟩ | ⟨definition, hlead, -⟩ := lead_cases h
    · exact hsource
    · cases hlead
  · intro h
    cases h with
    | stream h =>
      obtain ⟨function, inputs, hc⟩ := construct_of_callee h
      rw [given_lead_call hc, h]
    | reaction hc | changed hc =>
      rw [lead?, hc]
      rfl

/-- It leads to a definition when it refers to it. -/
theorem given_lead_definition_iff :
    a.given (lead? a.tree id) = some (.definition definition) ↔ a.RefersTo id definition := by
  constructor
  · intro h
    obtain ⟨hlead, -⟩ | ⟨definition, hlead, hrefers⟩ := lead_cases h
    · cases hlead
    · cases hlead
      exact hrefers
  · intro h
    cases h with
    | reference hfound hnode =>
      obtain ⟨name, hc⟩ := construct_of_resolve hfound
      rw [given_lead_reference hc, hfound, Option.bind_some, hnode]
      rfl
    | property hm =>
      obtain ⟨subject, name, hc⟩ := construct_of_memberOf hm
      rw [given_lead_property hc, hm]
      rfl
    | function h =>
      obtain ⟨function, inputs, hc⟩ := construct_of_callee h
      rw [given_lead_call hc, h]
    | structureDef h =>
      obtain ⟨function, inputs, hc⟩ := construct_of_callee h
      rw [given_lead_call hc, h]
    | conversion hc h => rw [given_lead_convert hc, h]

/-! ## Nodes of the store -/

/-- Outside the store there is nothing that leads anywhere. -/
theorem index_lt_of_lead {lead : Lead} (h : a.given (lead? a.tree id) = some lead) :
    id.index < a.tree.nodes.size := by
  refine Nat.lt_of_not_le fun hge => ?_
  have hc := Tree.construct_eq_nothing hge
  rw [lead?, hc] at h
  dsimp only at h
  rw [Inquiry.referent?, hc] at h
  cases h

theorem Source.index_lt (h : a.Source id) : id.index < a.tree.nodes.size :=
  index_lt_of_lead (given_lead_read_iff.2 h)

theorem RefersTo.index_lt (h : a.RefersTo id definition) : id.index < a.tree.nodes.size :=
  index_lt_of_lead (given_lead_definition_iff.2 h)

theorem index_lt_of_construct {t : Tree} (h : t.construct id ≠ .nothing) :
    id.index < t.nodes.size :=
  Nat.lt_of_not_le fun hge => h (Tree.construct_eq_nothing hge)

theorem index_lt_of_findNamed {t : Tree} {ids : List NodeId} {name : String}
    (h : t.findNamed ids name = some id) : id.index < t.nodes.size := by
  have hname : (t.construct id).definedName? = some name := by simpa using List.find?_some h
  refine index_lt_of_construct fun hc => ?_
  rw [hc] at hname
  cases hname

theorem index_lt_of_resolve {t : Tree} {reference : NodeId} {found : Definition}
    (h : t.resolve reference = some found) (hn : found.node? = some id) :
    id.index < t.nodes.size := by
  have hdefined : ∀ {ids : List NodeId} {name : String},
      (t.findNamed ids name).bind t.definitionOf? = some found → id.index < t.nodes.size := by
    intro ids name hb
    obtain ⟨other, hf, hd⟩ := Option.bind_eq_some_iff.1 hb
    rw [Tree.node?_of_definitionOf? hd] at hn
    cases hn
    exact index_lt_of_findNamed hf
  obtain ⟨name, hc⟩ := construct_of_resolve h
  rw [Tree.resolve, hc] at h
  rcases Option.or_eq_some_iff.1 h with h | ⟨-, h⟩
  · obtain ⟨ancestor, -, hi⟩ := List.exists_of_findSome?_eq_some h
    unfold Tree.introduced? at hi
    split at hi
    · exact hdefined hi
    · exact hdefined hi
    · exact hdefined hi
    · cases hi
  · obtain ⟨kind, -, rfl⟩ := Option.map_eq_some_iff.1 h
    cases hn

theorem index_lt_of_memberOf {member : NodeId} (h : a.memberOf id = some member) :
    member.index < a.tree.nodes.size := by
  obtain ⟨subject, name, hc⟩ := construct_of_memberOf h
  rw [memberOf, Inquiry.memberOf, hc] at h
  dsimp only at h
  rw [given_bind] at h
  split at h
  · change a.tree.structureMember? _ name = some member at h
    unfold Tree.structureMember? at h
    split at h
    · rcases Option.or_eq_some_iff.1 h with h | ⟨-, h⟩
      · exact index_lt_of_findNamed h
      · exact index_lt_of_findNamed h
    · cases h
  · cases h

/-- A member that is called is the definition itself. -/
theorem eq_of_calledMember? {t : Tree} {member : NodeId} {callee : Callee}
    (h : t.calledMember? member = some callee)
    (hd : callee = .function definition ∨ callee = .structureDef definition) :
    member = definition := by
  unfold Tree.calledMember? at h
  split at h
  · obtain rfl := Option.some.inj h
    simpa using hd
  · obtain rfl := Option.some.inj h
    simpa using hd
  · cases h

/-- A function or structure that is called is in the store. -/
theorem index_lt_of_callee {callee : Callee} (h : a.callee id = some callee)
    (hd : callee = .function definition ∨ callee = .structureDef definition) :
    definition.index < a.tree.nodes.size := by
  obtain ⟨function, inputs, hc⟩ := construct_of_callee h
  rw [Analysis.callee, Inquiry.callee, hc] at h
  dsimp only at h
  unfold Inquiry.calledBy? at h
  split at h
  · -- a name
    rw [given_bind] at h
    have hresolve : a.given (Inquiry.lookUp function) = a.tree.resolve function := rfl
    rw [hresolve] at h
    split at h
    · rename_i found hfound
      obtain rfl := Option.some.inj h
      obtain rfl : found = definition := by simpa using hd
      exact index_lt_of_resolve hfound rfl
    · rename_i found hfound
      obtain rfl := Option.some.inj h
      obtain rfl : found = definition := by simpa using hd
      exact index_lt_of_resolve hfound rfl
    · obtain rfl := Option.some.inj h
      simp at hd
    · cases h
  · -- a property
    rw [given_bind] at h
    split at h
    · rename_i member hm
      have hcalled : a.tree.calledMember? member = some callee := h
      exact eq_of_calledMember? hcalled hd ▸ index_lt_of_memberOf hm
    · rw [given_bind] at h
      split at h
      · obtain ⟨method, -, rfl⟩ := Option.map_eq_some_iff.1 h
        simp at hd
      · cases h
  · cases h

/-- What a node refers to is a definition in the store. -/
theorem RefersTo.definition_lt (h : a.RefersTo id definition) :
    definition.index < a.tree.nodes.size := by
  cases h with
  | reference hfound hnode => exact index_lt_of_resolve hfound hnode
  | property hm => exact index_lt_of_memberOf hm
  | function h => exact index_lt_of_callee h (.inl rfl)
  | structureDef h => exact index_lt_of_callee h (.inr rfl)
  | conversion _ h =>
    obtain ⟨⟨taken, given, body, hc⟩, -⟩ := Tree.conversion?_place h
    exact index_lt_of_construct (by rw [hc]; exact nofun)

/-! ## One node of the walk -/

/-- Among some nodes the sources were found, and the definitions that these nodes refer to, each
once and none that was seen before. -/
structure Gathers (a : Analysis) (seen ids : List NodeId) (found : List NodeId × List NodeId) :
    Prop where
  sources : ∀ n, n ∈ found.1 ↔ n ∈ ids ∧ a.Source n
  definitions : ∀ d, d ∈ found.2 ↔ d ∉ seen ∧ ∃ n ∈ ids, a.RefersTo n d
  nodup : found.2.Nodup

section
variable {seen rest : List NodeId} {found : List NodeId × List NodeId}

/-- A node that is no source adds none. -/
theorem Gathers.sources_cons (h : a.Gathers seen rest found) (hs : ¬ a.Source id) (n : NodeId) :
    n ∈ found.1 ↔ n ∈ id :: rest ∧ a.Source n := by
  rw [h.sources, List.mem_cons]
  exact ⟨fun ⟨hm, hn⟩ => ⟨.inr hm, hn⟩, fun ⟨hm, hn⟩ =>
    ⟨hm.resolve_left fun he => hs (he ▸ hn), hn⟩⟩

/-- A node that is no source and refers to nothing new adds nothing. -/
theorem Gathers.skip (h : a.Gathers seen rest found) (hs : ¬ a.Source id)
    (hr : ∀ d, a.RefersTo id d → d ∈ seen) : a.Gathers seen (id :: rest) found where
  sources := h.sources_cons hs
  definitions d := by
    rw [h.definitions, List.exists_mem_cons_iff]
    exact and_congr_right fun hd => ⟨.inr, fun ho => ho.resolve_left fun hn => hd (hr d hn)⟩
  nodup := h.nodup

theorem Gathers.source (h : a.Gathers seen rest found) (hs : a.Source id)
    (hr : ∀ d, ¬ a.RefersTo id d) : a.Gathers seen (id :: rest) (id :: found.1, found.2) where
  sources n := by
    rw [List.mem_cons, h.sources, List.mem_cons]
    constructor
    · rintro (rfl | ⟨hm, hn⟩)
      · exact ⟨.inl rfl, hs⟩
      · exact ⟨.inr hm, hn⟩
    · rintro ⟨rfl | hm, hn⟩
      · exact .inl rfl
      · exact .inr ⟨hm, hn⟩
  definitions d := by
    rw [h.definitions, List.exists_mem_cons_iff]
    exact and_congr_right fun _ => ⟨.inr, fun ho => ho.resolve_left (hr d)⟩
  nodup := h.nodup

theorem Gathers.newDefinition {target : NodeId} (h : a.Gathers (target :: seen) rest found)
    (hs : ¬ a.Source id) (hr : ∀ d, a.RefersTo id d ↔ d = target) (hnew : target ∉ seen) :
    a.Gathers seen (id :: rest) (found.1, target :: found.2) where
  sources := h.sources_cons hs
  definitions d := by
    rw [List.mem_cons, h.definitions, List.exists_mem_cons_iff, hr, List.mem_cons, not_or]
    by_cases hd : d = target
    · subst hd
      simp [hnew]
    · simp [hd]
  nodup := by
    refine List.nodup_cons.2 ⟨fun hm => ?_, h.nodup⟩
    exact ((h.definitions target).1 hm).1 List.mem_cons_self

end

theorem gathers_leads (a : Analysis) (seen ids : List NodeId) :
    a.Gathers seen ids (a.given (leads a.tree seen ids)) := by
  induction ids generalizing seen with
  | nil =>
    have hnil : a.given (leads a.tree seen []) = ([], []) := rfl
    rw [hnil]
    exact ⟨by simp, by simp, .nil⟩
  | cons id rest ih =>
    have hread : a.given (lead? a.tree id) = some .read ↔ a.Source id := given_lead_read_iff
    have hrefers : ∀ d, a.given (lead? a.tree id) = some (.definition d) ↔ a.RefersTo id d :=
      fun d => given_lead_definition_iff
    rw [leads, given_bind]
    cases hl : a.given (lead? a.tree id) with
    | none =>
      rw [hl] at hread hrefers
      exact (ih seen).skip (fun hs => nomatch hread.2 hs) fun d hd => nomatch (hrefers d).2 hd
    | some lead =>
      rw [hl] at hread hrefers
      cases lead with
      | read =>
        dsimp only
        rw [given_bind]
        exact (ih seen).source (hread.1 rfl) fun d hd => nomatch (hrefers d).2 hd
      | definition target =>
        have hs : ¬ a.Source id := fun hs => nomatch hread.2 hs
        have hr : ∀ d, a.RefersTo id d ↔ d = target := fun d => by
          rw [← hrefers, Option.some.injEq, Lead.definition.injEq, eq_comm]
        dsimp only
        split
        · rename_i hin
          exact (ih seen).skip hs fun d hd => (hr d).1 hd ▸ List.contains_iff_mem.1 hin
        · rename_i hnew
          rw [given_bind]
          exact (ih (target :: seen)).newDefinition hs hr (by simpa using hnew)

/-! ## The walk -/

theorem Reads.trans {node other : NodeId} (h : a.Reads id node) (h' : a.tree.Above node other) :
    a.Reads id other := by
  cases h with
  | beneath ha => exact .beneath (ha.trans h')
  | follow hr ht ha => exact .follow hr ht (ha.trans h')

/-- A node reads what the nodes beneath it read. -/
theorem Reads.above {node other : NodeId} (ha : a.tree.Above id node) (h : a.Reads node other) :
    a.Reads id other := by
  induction h with
  | beneath h => exact .beneath (ha.trans h)
  | follow _ hto h ih => exact .follow ih hto h

/-- All that is beneath the node was looked at: sources are found, and definitions were seen. -/
def Covered (a : Analysis) (seen found : List NodeId) (top : NodeId) : Prop :=
  ∀ n, a.tree.Above top n → (a.Source n → n ∈ found) ∧ ∀ d, a.RefersTo n d → d ∈ seen

/-- Where the walk from a node stands. It has come to nothing that the node does not read; and the
node itself and each definition that was seen is still pending, or all that is beneath it was looked
at. -/
structure Walking (a : Analysis) (id : NodeId) (pending seen found : List NodeId) : Prop where
  reads : ∀ top ∈ pending, a.Reads id top
  sources : ∀ n ∈ found, a.Reads id n ∧ a.Source n
  ordered : found.Pairwise (· < ·)
  nodup : seen.Nodup
  stored : ∀ d ∈ seen, d.index < a.tree.nodes.size
  frontier : ∀ top, top = id ∨ top ∈ seen → top ∈ pending ∨ a.Covered seen found top

theorem walking_start (a : Analysis) (id : NodeId) : a.Walking id [id] [] [] where
  reads top h := by
    rw [List.mem_singleton.1 h]
    exact .beneath .refl
  sources := nofun
  ordered := .nil
  nodup := .nil
  stored := nofun
  frontier top h := .inl (List.mem_singleton.2 (h.resolve_right List.not_mem_nil))

section
variable {top : NodeId} {pending seen found : List NodeId}

theorem Covered.mono (h : a.Covered seen found top) {seen' found' : List NodeId}
    (hseen : seen ⊆ seen') (hfound : found ⊆ found') : a.Covered seen' found' top := fun n hn =>
  ⟨fun hs => hfound ((h n hn).1 hs), fun d hd => hseen ((h n hn).2 d hd)⟩

/-- What was gathered beneath a node covers it. -/
theorem Gathers.covered {reads definitions : List NodeId}
    (h : a.Gathers seen (a.tree.descendants top) (reads, definitions)) :
    a.Covered (definitions ++ seen) (Ascending.union found reads) top := by
  intro n hn
  refine ⟨fun hs => ?_, fun d hd => ?_⟩
  · have hmem : n ∈ a.tree.descendants top := (Tree.mem_descendants_iff hs.index_lt).2 hn
    exact Ascending.mem_union.2 (.inr ((h.sources n).2 ⟨hmem, hs⟩))
  · have hmem : n ∈ a.tree.descendants top := (Tree.mem_descendants_iff hd.index_lt).2 hn
    by_cases hseen : d ∈ seen
    · exact List.mem_append_right _ hseen
    · exact List.mem_append_left _ ((h.definitions d).2 ⟨hseen, n, hmem, hd⟩)

theorem Walking.next (h : a.Walking id (top :: pending) seen found)
    {reads definitions : List NodeId}
    (hg : a.Gathers seen (a.tree.descendants top) (reads, definitions)) :
    a.Walking id (definitions ++ pending) (definitions ++ seen) (Ascending.union found reads) := by
  have hbeneath : ∀ n ∈ a.tree.descendants top, a.Reads id n := fun n hn =>
    (h.reads top List.mem_cons_self).trans (Tree.above_of_mem_descendantsTo hn)
  have hdefinitions : ∀ d ∈ definitions, d ∉ seen ∧ a.Reads id d ∧ d.index < a.tree.nodes.size := by
    intro d hd
    obtain ⟨hnew, n, hn, hr⟩ := (hg.definitions d).1 hd
    exact ⟨hnew, .follow (hbeneath n hn) hr .refl, hr.definition_lt⟩
  have hfrontier : ∀ other, other = id ∨ other ∈ seen → other ∈ definitions ++ pending ∨
      a.Covered (definitions ++ seen) (Ascending.union found reads) other := by
    intro other ho
    rcases h.frontier other ho with hp | hc
    · rcases List.mem_cons.1 hp with rfl | hp
      · exact .inr hg.covered
      · exact .inl (List.mem_append_right _ hp)
    · exact .inr (hc.mono (List.subset_append_right _ _) fun n hn =>
        Ascending.mem_union.2 (.inl hn))
  refine ⟨fun p hp => ?_, fun n hn => ?_, ?_, ?_, fun d hd => ?_, fun other ho => ?_⟩
  · rcases List.mem_append.1 hp with hp | hp
    · exact (hdefinitions p hp).2.1
    · exact h.reads p (List.mem_cons_of_mem top hp)
  · rcases Ascending.mem_union.1 hn with hn | hn
    · exact h.sources n hn
    · obtain ⟨hmem, hs⟩ := (hg.sources n).1 hn
      exact ⟨hbeneath n hmem, hs⟩
  · exact Ascending.pairwise_union NodeId.lt_trans NodeId.lt_total h.ordered reads
  · exact List.nodup_append.2 ⟨hg.nodup, h.nodup, fun d hd e he heq =>
      (hdefinitions d hd).1 (heq ▸ he)⟩
  · rcases List.mem_append.1 hd with hd | hd
    · exact (hdefinitions d hd).2.2
    · exact h.stored d hd
  · rcases ho with rfl | ho
    · exact hfrontier other (.inl rfl)
    · rcases List.mem_append.1 ho with hd | ho
      · exact .inl (List.mem_append_left _ hd)
      · exact hfrontier other (.inr ho)

/-- The walk ends by itself: each turn takes one pending node, and no definition is pending
twice. -/
theorem Walking.collects (h : a.Walking id pending seen found) {fuel : Nat}
    (hfuel : pending.length + (a.tree.nodes.size - seen.length) ≤ fuel) :
    ∃ seen', a.Walking id [] seen' (a.given (collectReads a.tree fuel pending seen found)) := by
  induction fuel generalizing pending seen found with
  | zero =>
    obtain rfl : pending = [] := List.eq_nil_of_length_eq_zero (by omega)
    exact ⟨seen, h⟩
  | succ fuel ih =>
    cases pending with
    | nil => exact ⟨seen, h⟩
    | cons top pending =>
      have hg := gathers_leads a seen (a.tree.descendants top)
      rw [collectReads, given_bind]
      generalize a.given (leads a.tree seen (a.tree.descendants top)) = gathered at hg ⊢
      obtain ⟨reads, definitions⟩ := gathered
      have hnext := h.next hg
      have hroom : (definitions ++ seen).length ≤ a.tree.nodes.size :=
        Tree.length_le_of_nodup hnext.nodup hnext.stored
      refine ih hnext ?_
      rw [List.length_append] at hroom ⊢
      rw [List.length_cons] at hfuel
      rw [List.length_append]
      omega

section
variable (h : a.Walking id [] seen found)
include h

theorem Walking.covered (htop : top = id ∨ top ∈ seen) : a.Covered seen found top :=
  (h.frontier top htop).resolve_left List.not_mem_nil

/-- What the node reads is beneath it or beneath a definition that was seen. -/
theorem Walking.exists_above {n : NodeId} (hr : a.Reads id n) :
    ∃ top, (top = id ∨ top ∈ seen) ∧ a.tree.Above top n := by
  induction hr with
  | beneath ha => exact ⟨id, .inl rfl, ha⟩
  | @follow node definition other _ hto ha ih =>
    obtain ⟨top, htop, hnode⟩ := ih
    exact ⟨definition, .inr ((h.covered htop node hnode).2 definition hto), ha⟩

/-- When nothing is pending, the sources that the node reads are found. -/
theorem Walking.mem_iff {n : NodeId} : n ∈ found ↔ a.Reads id n ∧ a.Source n := by
  refine ⟨h.sources n, fun ⟨hr, hs⟩ => ?_⟩
  obtain ⟨top, htop, hn⟩ := h.exists_above hr
  exact (h.covered htop n hn).1 hs

end
end

/-- However many more turns the walk from a node may take, it ends with the sources that the node
reads, in ascending order. -/
theorem given_collectReads (a : Analysis) (id : NodeId) (more : Nat) :
    let found := a.given (collectReads a.tree (a.tree.nodes.size + 1 + more) [id] [] [])
    (∀ n, n ∈ found ↔ a.Reads id n ∧ a.Source n) ∧ found.Pairwise (· < ·) := by
  intro found
  have hfuel : [id].length + (a.tree.nodes.size - ([] : List NodeId).length) ≤
      a.tree.nodes.size + 1 + more := by
    rw [List.length_singleton, List.length_nil]
    omega
  obtain ⟨seen, h⟩ := (walking_start a id).collects hfuel
  exact ⟨fun n => h.mem_iff, h.ordered⟩

theorem mem_streamDependencies_iff {n : NodeId} :
    n ∈ a.streamDependencies id ↔ a.Reads id n ∧ a.Source n :=
  (given_collectReads a id 0).1 n

instance : Std.Irrefl fun x y : NodeId => x < y := ⟨fun x => Nat.lt_irrefl x.index⟩

instance : Std.Antisymm fun x y : NodeId => x < y :=
  ⟨fun x y h h' => absurd (NodeId.lt_trans x y x h h') (Nat.lt_irrefl x.index)⟩

/-- The query for the dependencies of a node ends, whatever was asked before, and its reply lists in
ascending order the calls that make streams, the reactions and the tests for changes that are in the
least set of nodes with those beneath the node and, for each of them, those beneath what it refers
to. The walk ends by itself: more turns find nothing else. What the nodes beneath depend on is among
the dependencies of the node. -/
theorem streamDependencies_reads (t : Tree) (earlier : List Query) (id : NodeId) :
    let a := ofTree t
    ∃ answers now found later,
      (Context.replies t earlier).run (.fresh t.nodes.size) = some (answers, now) ∧
      (Context.reply t (.streamDependencies id)).run now = some (.nodes found, later) ∧
      (∀ n, n ∈ found ↔ a.Reads id n ∧ a.Source n) ∧ found.Pairwise (· < ·) ∧
      (∀ more, a.given (collectReads t (t.nodes.size + 1 + more) [id] [] []) = found) ∧
      ∀ n, t.Above id n → ∀ m ∈ a.streamDependencies n, m ∈ found := by
  intro a
  obtain ⟨now, hearlier, hnow⟩ :=
    Context.settles_replies t earlier (.fresh t.nodes.size) Context.sound_fresh
  obtain ⟨later, hreply, -⟩ := Context.settles_reply t (.streamDependencies id) now hnow
  have hall := given_collectReads a id
  refine ⟨_, now, a.streamDependencies id, later, hearlier, hreply, (hall 0).1, (hall 0).2,
    fun more => ?_, fun n hn m hm => ?_⟩
  · -- ascending lists with the same members are equal
    exact (hall more).2.eq_of_mem_iff (hall 0).2 fun n =>
      ((hall more).1 n).trans ((hall 0).1 n).symm
  · obtain ⟨hr, hs⟩ := mem_streamDependencies_iff.1 hm
    exact mem_streamDependencies_iff.2 ⟨.above hn hr, hs⟩

/-- Two functions call each other, and the stream that one of them makes is found from both. -/
example :
    let t : Tree :=
      ⟨#[⟨.reference "g", .zero⟩, ⟨.call ⟨0⟩ [], .zero⟩,
        ⟨.functionDef "f" [] none (some ⟨1⟩), .zero⟩, ⟨.reference "f", .zero⟩,
        ⟨.call ⟨3⟩ [], .zero⟩, ⟨.reference "Time", .zero⟩, ⟨.call ⟨5⟩ [], .zero⟩,
        ⟨.list [⟨4⟩, ⟨6⟩], .zero⟩, ⟨.functionDef "g" [] none (some ⟨7⟩), .zero⟩,
        ⟨.block [⟨2⟩, ⟨8⟩], .zero⟩, ⟨.program ⟨9⟩, .zero⟩],
        #[some ⟨1⟩, some ⟨2⟩, some ⟨9⟩, some ⟨4⟩, some ⟨7⟩, some ⟨6⟩, some ⟨7⟩, some ⟨8⟩, some ⟨9⟩,
          some ⟨10⟩, none], ⟨10⟩⟩
    (ofTree t).streamDependencies ⟨1⟩ = [⟨6⟩] ∧ (ofTree t).streamDependencies ⟨4⟩ = [⟨6⟩] := by
  decide +kernel

end ReactiveLang.Analysis
