import ReactiveLang.Proofs.Value.Equality

/-!
# Collections and the order in which they are made

Equality compares the items of sets and the entries of maps without regard to their order, but it
only looks for those of one collection in the other, and a set is made by leaving out what equals an
item before. For values that hold no number that is not one, equality is an equivalence, so neither
the order nor how often an item is written matters: a set is given by its items up to equality
(`same_setOf_iff`), a map by what the last pair of each key says (`same_mapOf_iff`).

* `same_self`: a value without such numbers equals itself.
* `valueUnder_putEntry`: what a map gives for a key after an entry has been put into it.
* `valueUnder_foldl`: a map that is made of pairs gives for a key what the last of them says.
* `same_equivalence`: the laws of equality together.
-/

namespace ReactiveLang

/-- Only what is no number does not equal itself. -/
theorem Number.beq_self_iff {x : Float} : (x == x) = true ↔ x.isNaN = false := by
  have hnan : x.isNaN = x.toModel.unpack.isNaN := rfl
  rw [beq_iff, hnan]
  cases x.toModel.unpack with
  | notANumber => exact ⟨nofun, nofun⟩
  | infinity sign => exact ⟨fun _ => rfl, fun _ => .infinity sign⟩
  | zero sign => exact ⟨fun _ => rfl, fun _ => .zero sign sign⟩
  | finite sign m e h => exact ⟨fun _ => rfl, fun _ => .finite sign m e h⟩

section
variable {α β : Type} {R : α → β → Prop}

/-- If each of some items is related to one of the others, and no two of them to the same one, then
there are at least as many others. -/
theorem length_le_of_related {xs : List α} {ys : List β} (h : ∀ x ∈ xs, ∃ y ∈ ys, R x y)
    (hdiff : xs.Pairwise fun x x' => ∀ y ∈ ys, R x y → ¬ R x' y) : xs.length ≤ ys.length := by
  cases xs with
  | nil => exact Nat.zero_le _
  | cons x rest =>
    obtain ⟨hx, hrest⟩ := List.pairwise_cons.1 hdiff
    -- Were there fewer, the rest would already be related to all of them.
    by_contra hfew
    have hlen : ys.length ≤ rest.length := by rw [List.length_cons] at hfew; omega
    obtain ⟨y, hy, hr⟩ := h x List.mem_cons_self
    obtain ⟨x', hx', hr'⟩ := mem_related_of_length hlen
      (fun x' hx' => h x' (List.mem_cons_of_mem x hx')) hrest y hy
    exact hx x' hx' y hy hr hr'

end

namespace Value

variable {layout : NodeId → List String} {a b c : Value}

/-- It is not the number that equals nothing. -/
def NotNaN : Value → Prop
  | measurement x _ => x.isNaN = false
  | _ => True

/-- At any depth items and keys differ, instances have the inputs of their structure, and numbers
are numbers. -/
structure Regular (layout : NodeId → List String) (v : Value) : Prop where
  distinct : v.Everywhere (Distinct layout)
  numbers : v.Everywhere NotNaN

theorem regular_of_held_nil {v : Value} (h : v.held = []) (hd : v.Distinct layout)
    (hn : v.NotNaN) : v.Regular layout :=
  ⟨(everywhere_of_held_nil h).2 hd, (everywhere_of_held_nil h).2 hn⟩

/-! ## Equality is an equivalence -/

theorem rel_same_self {o : Option Value} (h : ∀ v, o = some v → v.Same v) :
    Option.Rel Same o o := by
  cases o with
  | none => exact .none
  | some v => exact .some (h v rfl)

/-- A value that holds no number that is not one equals itself. -/
theorem same_self (h : a.Everywhere NotNaN) : a.Same a := by
  induction a using induct with
  | nothing => rfl
  | boolean b => simp [Same, same]
  | text s => simp [Same, same]
  | stream id => simp [Same, same]
  | function f => simp [Same, same]
  | measurement x u =>
    have hx : (x == x) = true := Number.beq_self_iff.2 h.here
    simp [Same, same, hx]
  | list items ih =>
    have hitems := (everywhere_list.1 h).2
    exact same_list_iff.2 ⟨items, rfl, List.forall₂_same.2 fun v hv => ih v hv (hitems v hv)⟩
  | set items ih =>
    have hitems := (everywhere_set.1 h).2
    exact same_set_iff.2 ⟨items, rfl, rfl, fun v hv => ⟨v, hv, ih v hv (hitems v hv)⟩⟩
  | map entries ih =>
    have hentries := (everywhere_map.1 h).2
    exact same_map_iff.2 ⟨entries, rfl, rfl, fun e he =>
      ⟨e, he, (ih e he).1 (hentries e he).1, (ih e he).2 (hentries e he).2⟩⟩
  | instanceOf object ih =>
    have hbindings := (everywhere_instanceOf.1 h).2
    refine same_instanceOf_iff.2 ⟨object, rfl, rfl, fun n _ => rel_same_self fun v hv => ?_⟩
    have hm := Keyed.mem_of_lookup hv
    exact ih _ hm (hbindings _ hm)
  | exception kind node ih =>
    refine same_exception_iff.2 ⟨kind, rfl, ?_⟩
    cases kind with
    | typeMismatch expected v =>
      have hv := (everywhere_exception.1 h).2 expected v rfl
      exact .inl ⟨expected, v, v, rfl, rfl, ih expected v rfl hv⟩
    | _ => exact .inr ⟨rfl, fun _ _ h => by cases h⟩

namespace Regular

theorem symm (ha : a.Regular layout) (hb : b.Regular layout) (h : a.Same b) : b.Same a :=
  (comparable ha.distinct).symm b hb.distinct h

theorem trans (ha : a.Regular layout) (hb : b.Regular layout) (hc : c.Regular layout)
    (h : a.Same b) (h' : b.Same c) : a.Same c :=
  (comparable ha.distinct).trans b c hb.distinct hc.distinct h h'

theorem refl (ha : a.Regular layout) : a.Same a := same_self ha.numbers

/-- Values that equal a third one equal each other. -/
theorem trans_symm (ha : a.Regular layout) (hb : b.Regular layout) (hc : c.Regular layout)
    (h : a.Same c) (h' : b.Same c) : a.Same b :=
  ha.trans hc hb h (hb.symm hc h')

/-- Of two values that differ, no third one equals both. -/
theorem not_same (ha : a.Regular layout) (hb : b.Regular layout) (hc : c.Regular layout)
    (hne : a.same b = false) (h : a.Same c) : ¬ b.Same c := fun h' => by
  have hsame : a.Same b := ha.trans_symm hb hc h h'
  rw [Same, hne] at hsame
  cases hsame

end Regular

/-! ## Sets -/

/-- Every item of the first list equals one of the second. -/
def Within (xs ys : List Value) : Prop := ∀ x ∈ xs, ∃ y ∈ ys, x.Same y

theorem mem_foldl_addItem_of_found {found : List Value} (items : List Value) (h : a ∈ found) :
    a ∈ items.foldl addItem found := by
  induction items generalizing found with
  | nil => exact h
  | cons item rest ih =>
    refine ih ?_
    unfold addItem
    split
    · exact h
    · exact List.mem_append_left _ h

/-- An item stays in a set, or an item before it equals it. -/
theorem exists_same_foldl_addItem {items found : List Value} {item : Value} (hi : item ∈ items)
    (hself : item.Same item) : ∃ u ∈ items.foldl addItem found, u.Same item := by
  induction items generalizing found with
  | nil => cases hi
  | cons first rest ih =>
    rcases List.mem_cons.1 hi with rfl | hi
    · by_cases hfound : (found.any fun u => u.same item) = true
      · obtain ⟨u, hu, hsame⟩ := List.any_eq_true.1 hfound
        refine ⟨u, ?_, hsame⟩
        rw [List.foldl_cons, addItem, if_pos hfound]
        exact mem_foldl_addItem_of_found rest hu
      · refine ⟨item, ?_, hself⟩
        rw [List.foldl_cons, addItem, if_neg hfound]
        exact mem_foldl_addItem_of_found rest (List.mem_append_right _ List.mem_cons_self)
    · exact ih hi

theorem regular_set {items : List Value} : (set items).Regular layout ↔
    (items.Pairwise fun a b => a.same b = false) ∧ ∀ v ∈ items, v.Regular layout := by
  constructor
  · rintro ⟨hd, hn⟩
    obtain ⟨hdiff, hitems⟩ := everywhere_set.1 hd
    exact ⟨hdiff, fun v hv => ⟨hitems v hv, (everywhere_set.1 hn).2 v hv⟩⟩
  · rintro ⟨hdiff, hitems⟩
    exact ⟨everywhere_set.2 ⟨hdiff, fun v hv => (hitems v hv).distinct⟩,
      everywhere_set.2 ⟨trivial, fun v hv => (hitems v hv).numbers⟩⟩

section
variable {xs ys zs : List Value}

theorem regular_setOf (hxs : ∀ v ∈ xs, v.Regular layout) : (setOf xs).Regular layout :=
  regular_set.2 ⟨pairwise_foldl_addItem List.Pairwise.nil xs, fun v hv =>
    hxs v ((mem_foldl_addItem hv).resolve_left nofun)⟩

/-- A set holds the items that it is made of, up to equality. -/
theorem setOf_items (hxs : ∀ v ∈ xs, v.Regular layout) : ∃ us, setOf xs = set us ∧
    (∀ u ∈ us, u.Regular layout) ∧ Within xs us ∧ Within us xs := by
  refine ⟨_, rfl, (regular_set.1 (regular_setOf hxs)).2, fun x hx => ?_, fun u hu => ?_⟩
  · obtain ⟨u, hu, hsame⟩ : ∃ u ∈ xs.foldl addItem [], u.Same x :=
      exists_same_foldl_addItem hx (hxs x hx).refl
    exact ⟨u, hu, ((regular_set.1 (regular_setOf hxs)).2 u hu).symm (hxs x hx) hsame⟩
  · have hm := (mem_foldl_addItem hu).resolve_left nofun
    exact ⟨u, hm, (hxs u hm).refl⟩

theorem Within.trans (h : Within xs ys) (h' : Within ys zs) (hxs : ∀ v ∈ xs, v.Regular layout)
    (hys : ∀ v ∈ ys, v.Regular layout) (hzs : ∀ v ∈ zs, v.Regular layout) : Within xs zs := by
  intro x hx
  obtain ⟨y, hy, hxy⟩ := h x hx
  obtain ⟨z, hz, hyz⟩ := h' y hy
  exact ⟨z, hz, (hxs x hx).trans (hys y hy) (hzs z hz) hxy hyz⟩

/-- A set has no more items than another if each equals one of those. -/
theorem Within.length_le (h : Within xs ys) (hx : (set xs).Regular layout)
    (hys : ∀ v ∈ ys, v.Regular layout) : xs.length ≤ ys.length := by
  obtain ⟨hdiff, hxs⟩ := regular_set.1 hx
  exact length_le_of_related h (hdiff.imp_of_mem fun {x x'} hx hx' hne y hy hxy =>
    (hxs x hx).not_same (hxs x' hx') (hys y hy) hne hxy)

/-- Sets are equal when each item of either equals one of the other. -/
theorem same_set_iff_within (hx : (set xs).Regular layout) (hy : (set ys).Regular layout) :
    (set xs).Same (set ys) ↔ Within xs ys ∧ Within ys xs := by
  have hforth : ∀ {us vs : List Value}, (set us).Same (set vs) → Within us vs := by
    intro us vs h
    obtain ⟨_, ⟨⟩, -, h⟩ := same_set_iff.1 h
    exact h
  constructor
  · exact fun h => ⟨hforth h, hforth (hx.symm hy h)⟩
  · rintro ⟨h, h'⟩
    have hlen : xs.length = ys.length := Nat.le_antisymm
      (h.length_le hx (regular_set.1 hy).2) (h'.length_le hy (regular_set.1 hx).2)
    exact same_set_iff.2 ⟨ys, rfl, hlen, h⟩

/-- Sets that are made of items are equal when each item of either equals one of the other. -/
theorem same_setOf_iff (hxs : ∀ v ∈ xs, v.Regular layout) (hys : ∀ v ∈ ys, v.Regular layout) :
    (setOf xs).Same (setOf ys) ↔ Within xs ys ∧ Within ys xs := by
  have hx := regular_setOf hxs
  have hy := regular_setOf hys
  obtain ⟨us, hus, hu, hxu, hux⟩ := setOf_items hxs
  obtain ⟨vs, hvs, hv, hyv, hvy⟩ := setOf_items hys
  rw [hus] at hx ⊢
  rw [hvs] at hy ⊢
  rw [same_set_iff_within hx hy]
  constructor
  · rintro ⟨h, h'⟩
    exact ⟨(hxu.trans h hxs hu hv).trans hvy hxs hv hys,
      (hyv.trans h' hys hv hu).trans hux hys hu hxs⟩
  · rintro ⟨h, h'⟩
    exact ⟨(hux.trans h hu hxs hys).trans hyv hu hys hv,
      (hvy.trans h' hv hys hxs).trans hxu hv hxs hu⟩

end

/-! ## Maps -/

/-- What stands under the first key that equals the given one. -/
def valueUnder (entries : List (Value × Value)) (key : Value) : Option Value :=
  (entries.find? fun e => e.1.same key).map (·.2)

/-- What the last pair says whose key equals the given one. -/
def lastUnder (pairs : List (Value × Value)) (key : Value) : Option Value :=
  valueUnder pairs.reverse key

theorem valueUnder_cons (e : Value × Value) (rest : List (Value × Value)) (key : Value) :
    valueUnder (e :: rest) key = if e.1.same key then some e.2 else valueUnder rest key := by
  unfold valueUnder
  rw [List.find?_cons]
  by_cases h : e.1.same key = true
  · rw [h, if_pos rfl]
    rfl
  · rw [if_neg h, Bool.eq_false_iff.2 h]

theorem lastUnder_cons (p : Value × Value) (rest : List (Value × Value)) (key : Value) :
    lastUnder (p :: rest) key =
      (lastUnder rest key).or (if p.1.same key then some p.2 else none) := by
  have hone : valueUnder [p] key = if p.1.same key then some p.2 else none :=
    valueUnder_cons p [] key
  rw [← hone, lastUnder, List.reverse_cons, lastUnder, valueUnder, List.find?_append, Option.map_or]
  rfl

/-- Pairs of regular values. -/
def RegularPairs (layout : NodeId → List String) (pairs : List (Value × Value)) : Prop :=
  ∀ p ∈ pairs, p.1.Regular layout ∧ p.2.Regular layout

section
variable {key : Value} {entries pairs : List (Value × Value)} (hkey : key.Regular layout)
include hkey

/-- An entry that is put into a map is found under its key, and any other key finds what it did. -/
theorem valueUnder_putEntry {entry : Value × Value} (he : RegularPairs layout entries)
    (hentry : entry.1.Regular layout) : valueUnder (putEntry entries entry) key =
      if entry.1.same key then some entry.2 else valueUnder entries key := by
  induction entries with
  | nil => exact valueUnder_cons entry [] key
  | cons first rest ih =>
    obtain ⟨k, v⟩ := first
    have hk : k.Regular layout := (he _ List.mem_cons_self).1
    have hrest : RegularPairs layout rest := fun e hm => he e (List.mem_cons_of_mem _ hm)
    unfold putEntry
    by_cases hreplace : k.same entry.1 = true
    · -- The key that stays finds what the key of the entry finds.
      have heq : k.same key = entry.1.same key := Bool.eq_iff_iff.2
        ⟨fun h => hentry.trans hk hkey (hk.symm hentry hreplace) h,
          fun h => hk.trans hentry hkey hreplace h⟩
      rw [if_pos hreplace, valueUnder_cons, valueUnder_cons, heq]
      split <;> rfl
    · rw [if_neg hreplace, valueUnder_cons, valueUnder_cons, ih hrest]
      by_cases hfirst : k.same key = true
      · have hother : entry.1.same key = false := Bool.eq_false_iff.2 fun h =>
          hreplace (hk.trans_symm hentry hkey hfirst h)
        rw [if_pos hfirst, hother, if_neg Bool.false_ne_true, if_pos hfirst]
      · rw [if_neg hfirst, if_neg hfirst]

end

section
variable {entries pairs : List (Value × Value)} (he : RegularPairs layout entries)
include he

theorem regularPairs_putEntry {entry : Value × Value}
    (hentry : entry.1.Regular layout ∧ entry.2.Regular layout) :
    RegularPairs layout (putEntry entries entry) := by
  intro e hput
  rcases mem_putEntry hput with hm | rfl | ⟨k, v, hm, rfl⟩
  · exact he e hm
  · exact hentry
  · exact ⟨(he _ hm).1, hentry.2⟩

theorem regularPairs_foldl (hp : RegularPairs layout pairs) :
    RegularPairs layout (pairs.foldl putEntry entries) := by
  induction pairs generalizing entries with
  | nil => exact he
  | cons p rest ih =>
    exact ih (regularPairs_putEntry he (hp p List.mem_cons_self)) fun e hm =>
      hp e (List.mem_cons_of_mem p hm)

/-- A map to which pairs are added says what the last of them says, and else what it said before. -/
theorem valueUnder_foldl (hp : RegularPairs layout pairs) {key : Value}
    (hkey : key.Regular layout) : valueUnder (pairs.foldl putEntry entries) key =
      (lastUnder pairs key).or (valueUnder entries key) := by
  induction pairs generalizing entries with
  | nil => rfl
  | cons p rest ih =>
    have hfirst := hp p List.mem_cons_self
    have hrest : RegularPairs layout rest := fun e hm => hp e (List.mem_cons_of_mem p hm)
    rw [List.foldl_cons, ih (regularPairs_putEntry he hfirst) hrest,
      valueUnder_putEntry hkey he hfirst.1, lastUnder_cons, Option.or_assoc]
    congr 1
    split <;> rfl

end

theorem pairwise_foldl_putEntry {entries : List (Value × Value)}
    (h : entries.Pairwise fun d e => d.1.same e.1 = false) (pairs : List (Value × Value)) :
    (pairs.foldl putEntry entries).Pairwise fun d e => d.1.same e.1 = false := by
  induction pairs generalizing entries with
  | nil => exact h
  | cons p rest ih => exact ih (pairwise_putEntry h)

/-- Every key of a map was written. -/
theorem exists_key_of_mem_foldl {pairs entries : List (Value × Value)} {e : Value × Value}
    (h : e ∈ pairs.foldl putEntry entries) :
    (∃ d ∈ entries, e.1 = d.1) ∨ ∃ p ∈ pairs, e.1 = p.1 := by
  induction pairs generalizing entries with
  | nil => exact .inl ⟨e, h, rfl⟩
  | cons p rest ih =>
    rcases ih h with ⟨d, hd, hkey⟩ | ⟨q, hq, hkey⟩
    · rcases key_of_mem_putEntry hd with hd | ⟨c, hc, hd⟩
      · exact .inr ⟨p, List.mem_cons_self, hkey.trans hd⟩
      · exact .inl ⟨c, hc, hkey.trans hd⟩
    · exact .inr ⟨q, List.mem_cons_of_mem p hq, hkey⟩

theorem exists_of_valueUnder {entries : List (Value × Value)} {key v : Value}
    (h : valueUnder entries key = some v) : ∃ e ∈ entries, e.1.Same key ∧ e.2 = v := by
  obtain ⟨e, hfind, hv⟩ := Option.map_eq_some_iff.1 h
  have hkey : e.1.same key = true := by simpa using List.find?_some hfind
  exact ⟨e, List.mem_of_find?_eq_some hfind, hkey, hv⟩

/-- A pair whose key equals the given one has a last one. -/
theorem lastUnder_isSome {pairs : List (Value × Value)} {p : Value × Value} {key : Value}
    (hp : p ∈ pairs) (h : p.1.Same key) : (lastUnder pairs key).isSome = true := by
  unfold lastUnder valueUnder
  rw [Option.isSome_map, List.find?_isSome]
  exact ⟨p, List.mem_reverse.2 hp, h⟩

/-- Pairs of which some are found in the one and some in the other. -/
theorem rel_of_found {o p : Option Value} (h : ∀ v, o = some v → ∃ w, p = some w ∧ v.Same w)
    (h' : ∀ w, p = some w → ∃ v, o = some v ∧ w.Same v) : Option.Rel Same o p := by
  cases o with
  | none =>
    cases p with
    | none => exact .none
    | some w =>
      obtain ⟨_, ⟨⟩, -⟩ := h' w rfl
  | some v =>
    obtain ⟨w, rfl, hsame⟩ := h v rfl
    exact .some hsame

theorem regular_map {entries : List (Value × Value)} : (map entries).Regular layout ↔
    (entries.Pairwise fun d e => d.1.same e.1 = false) ∧ RegularPairs layout entries := by
  constructor
  · rintro ⟨hd, hn⟩
    obtain ⟨hdiff, hentries⟩ := everywhere_map.1 hd
    have hnumbers := (everywhere_map.1 hn).2
    exact ⟨hdiff, fun e he =>
      ⟨⟨(hentries e he).1, (hnumbers e he).1⟩, ⟨(hentries e he).2, (hnumbers e he).2⟩⟩⟩
  · rintro ⟨hdiff, hentries⟩
    exact ⟨everywhere_map.2
        ⟨hdiff, fun e he => ⟨(hentries e he).1.distinct, (hentries e he).2.distinct⟩⟩,
      everywhere_map.2
        ⟨trivial, fun e he => ⟨(hentries e he).1.numbers, (hentries e he).2.numbers⟩⟩⟩

section
variable {xs ys : List (Value × Value)} (hx : (map xs).Regular layout)
include hx

/-- As keys differ, an entry is what stands under every value that equals its key. -/
theorem valueUnder_of_mem {e : Value × Value} (he : e ∈ xs) {key : Value}
    (hkey : key.Regular layout) (h : e.1.Same key) : valueUnder xs key = some e.2 := by
  obtain ⟨hdiff, hxs⟩ := regular_map.1 hx
  clear hx
  induction xs with
  | nil => cases he
  | cons first rest ih =>
    obtain ⟨hfirst, hrest⟩ := List.pairwise_cons.1 hdiff
    rw [valueUnder_cons]
    rcases List.mem_cons.1 he with rfl | he'
    · exact if_pos h
    · have hother : ¬ first.1.same key = true := fun hsame =>
        (hxs first List.mem_cons_self).1.not_same (hxs e he).1 hkey (hfirst e he') hsame h
      rw [if_neg hother]
      exact ih he' hrest fun d hd => hxs d (List.mem_cons_of_mem first hd)

variable (hy : (map ys).Regular layout)
include hy

/-- A map in which each key of another is found has at least as many entries. -/
theorem length_le_of_found (h : ∀ e ∈ xs, ∃ w, valueUnder ys e.1 = some w ∧ e.2.Same w) :
    xs.length ≤ ys.length := by
  obtain ⟨hdiff, hxs⟩ := regular_map.1 hx
  have hys := (regular_map.1 hy).2
  refine length_le_of_related (R := fun d e => d.1.Same e.1) (fun d hd => ?_) ?_
  · obtain ⟨w, hw, -⟩ := h d hd
    obtain ⟨e, he, hkey, -⟩ := exists_of_valueUnder hw
    exact ⟨e, he, (hys e he).1.symm (hxs d hd).1 hkey⟩
  · exact hdiff.imp_of_mem fun {d d'} hd hd' hne e he hde =>
      (hxs d hd).1.not_same (hxs d' hd').1 (hys e he).1 hne hde

/-- What the first of two equal maps says for a key, the second says too. -/
theorem valueUnder_of_same_map (h : (map xs).Same (map ys)) {key v : Value}
    (hkey : key.Regular layout) (hv : valueUnder xs key = some v) :
    ∃ w, valueUnder ys key = some w ∧ v.Same w := by
  have hxs := (regular_map.1 hx).2
  have hys := (regular_map.1 hy).2
  obtain ⟨_, ⟨⟩, -, hall⟩ := same_map_iff.1 h
  obtain ⟨d, hd, hdkey, rfl⟩ := exists_of_valueUnder hv
  obtain ⟨e, he, hkeys, hvalues⟩ := hall d hd
  have hekey : e.1.Same key :=
    (hys e he).1.trans (hxs d hd).1 hkey ((hxs d hd).1.symm (hys e he).1 hkeys) hdkey
  exact ⟨e.2, valueUnder_of_mem hy he hkey hekey, hvalues⟩

omit hy in
/-- Every entry of a map is found, with an equal value, in one that says the same. -/
theorem found_of_rel (h : ∀ key, key.Regular layout →
    Option.Rel Same (valueUnder xs key) (valueUnder ys key)) :
    ∀ e ∈ xs, ∃ w, valueUnder ys e.1 = some w ∧ e.2.Same w := by
  intro e he
  have hkey := ((regular_map.1 hx).2 e he).1
  have hrel := h e.1 hkey
  rw [valueUnder_of_mem hx he hkey hkey.refl] at hrel
  generalize valueUnder ys e.1 = o at hrel ⊢
  cases hrel with
  | some hsame => exact ⟨_, rfl, hsame⟩

/-- Maps are equal when they say the same for every key. -/
theorem same_map_iff_valueUnder : (map xs).Same (map ys) ↔
    ∀ key, key.Regular layout → Option.Rel Same (valueUnder xs key) (valueUnder ys key) := by
  have hmember : ∀ {zs : List (Value × Value)} {key v : Value}, (map zs).Regular layout →
      valueUnder zs key = some v → v.Regular layout := by
    intro zs key v hz hv
    obtain ⟨e, he, -, rfl⟩ := exists_of_valueUnder hv
    exact ((regular_map.1 hz).2 e he).2
  constructor
  · exact fun h key hkey => rel_of_found
      (fun v => valueUnder_of_same_map hx hy h hkey)
      (fun w => valueUnder_of_same_map hy hx (hx.symm hy h) hkey)
  · intro h
    have h' : ∀ key, key.Regular layout →
        Option.Rel Same (valueUnder ys key) (valueUnder xs key) := fun key hkey =>
      rel_swap (h key hkey) fun v w hv hw => (hmember hx hv).symm (hmember hy hw)
    have hforth := found_of_rel hx h
    have hlen : xs.length = ys.length := Nat.le_antisymm
      (length_le_of_found hx hy hforth) (length_le_of_found hy hx (found_of_rel hy h'))
    refine same_map_iff.2 ⟨ys, rfl, hlen, fun d hd => ?_⟩
    obtain ⟨w, hw, hsame⟩ := hforth d hd
    obtain ⟨e, he, hkey, rfl⟩ := exists_of_valueUnder hw
    have hd' := ((regular_map.1 hx).2 d hd).1
    exact ⟨e, he, ((regular_map.1 hy).2 e he).1.symm hd' hkey, hsame⟩

end

section
variable {ps qs : List (Value × Value)} (hp : RegularPairs layout ps)
include hp

theorem regular_mapOf : (mapOf ps).Regular layout :=
  regular_map.2 ⟨pairwise_foldl_putEntry List.Pairwise.nil ps,
    regularPairs_foldl (List.forall_mem_nil _) hp⟩

theorem valueUnder_mapOf {key : Value} (hkey : key.Regular layout) :
    valueUnder (ps.foldl putEntry []) key = lastUnder ps key := by
  rw [valueUnder_foldl (List.forall_mem_nil _) hp hkey]
  exact Option.or_none

/-- A map has one entry for each class of equal keys, with what the last pair of the class says. -/
theorem mapOf_entries : ∃ entries, mapOf ps = map entries ∧
    (entries.Pairwise fun d e => d.1.same e.1 = false) ∧
    (∀ p ∈ ps, ∃ e ∈ entries, p.1.Same e.1) ∧
    ∀ e ∈ entries, (∃ p ∈ ps, e.1 = p.1) ∧ lastUnder ps e.1 = some e.2 := by
  obtain ⟨hdiff, hentries⟩ := regular_map.1 (regular_mapOf hp)
  refine ⟨_, rfl, hdiff, fun p hm => ?_, fun e he => ⟨?_, ?_⟩⟩
  · have hkey := (hp p hm).1
    obtain ⟨v, hv⟩ := Option.isSome_iff_exists.1 (lastUnder_isSome hm hkey.refl)
    obtain ⟨e, he, hsame, -⟩ := exists_of_valueUnder ((valueUnder_mapOf hp hkey).trans hv)
    exact ⟨e, he, (hentries e he).1.symm hkey hsame⟩
  · exact (exists_key_of_mem_foldl he).resolve_left fun ⟨d, hd, _⟩ => by cases hd
  · have hkey := (hentries e he).1
    rw [← valueUnder_mapOf hp hkey]
    exact valueUnder_of_mem (regular_mapOf hp) he hkey hkey.refl

/-- Maps that are made of pairs are equal when the last pairs of each key say the same. -/
theorem same_mapOf_iff (hq : RegularPairs layout qs) : (mapOf ps).Same (mapOf qs) ↔
    ∀ key, key.Regular layout → Option.Rel Same (lastUnder ps key) (lastUnder qs key) := by
  unfold mapOf
  rw [same_map_iff_valueUnder (regular_mapOf hp) (regular_mapOf hq)]
  refine forall₂_congr fun key hkey => ?_
  rw [valueUnder_mapOf hp hkey, valueUnder_mapOf hq hkey]

end

/-- The laws of equality. For values in which the items of every set and the keys of every map
differ, and the instances of a structure have its inputs, equality is symmetric and transitive; it
is reflexive for values without a number that is not one. If both is so, two sets are equal exactly
when each item that is written in one equals an item of the other; a map has one entry for each
class of equal keys, with the value of the last pair of that class; and two maps are equal exactly
when the last pairs say the same for every key. -/
theorem same_equivalence (layout : NodeId → List String) :
    (∀ a b : Value, a.Everywhere (Distinct layout) → b.Everywhere (Distinct layout) →
      a.Same b → b.Same a) ∧
    (∀ a b c : Value, a.Everywhere (Distinct layout) → b.Everywhere (Distinct layout) →
      c.Everywhere (Distinct layout) → a.Same b → b.Same c → a.Same c) ∧
    (∀ a : Value, a.Everywhere NotNaN → a.Same a) ∧
    (∀ xs ys : List Value, (∀ v ∈ xs, v.Regular layout) → (∀ v ∈ ys, v.Regular layout) →
      ((setOf xs).Same (setOf ys) ↔
        (∀ x ∈ xs, ∃ y ∈ ys, x.Same y) ∧ ∀ y ∈ ys, ∃ x ∈ xs, y.Same x)) ∧
    (∀ ps : List (Value × Value), RegularPairs layout ps → ∃ entries, mapOf ps = map entries ∧
      (entries.Pairwise fun d e => d.1.same e.1 = false) ∧
      (∀ p ∈ ps, ∃ e ∈ entries, p.1.Same e.1) ∧
      ∀ e ∈ entries, (∃ p ∈ ps, e.1 = p.1) ∧ lastUnder ps e.1 = some e.2) ∧
    ∀ ps qs : List (Value × Value), RegularPairs layout ps → RegularPairs layout qs →
      ((mapOf ps).Same (mapOf qs) ↔
        ∀ key, key.Regular layout → Option.Rel Same (lastUnder ps key) (lastUnder qs key)) :=
  ⟨fun _ b ha hb => (comparable ha).symm b hb,
    fun _ b c ha hb hc => (comparable ha).trans b c hb hc, fun _ => same_self,
    fun _ _ => same_setOf_iff, fun _ => mapOf_entries, fun _ _ => same_mapOf_iff⟩

/-- Two orders of two numbers, of which one is written twice in one of them; and a key that is
written twice, whose last value counts. -/
theorem same_equivalence_orders :
    let layout : NodeId → List String := fun _ => []
    let xs := [number 1, number 2, number 1]
    let ys := [number 2, number 1]
    let ps := [(number 1, text "a"), (number 2, text "b"), (number 1, text "c")]
    let qs := [(number 2, text "b"), (number 1, text "c")]
    ((∀ v ∈ xs, v.Regular layout) ∧ (∀ v ∈ ys, v.Regular layout) ∧ RegularPairs layout ps ∧
      RegularPairs layout qs) ∧
      (setOf xs).Same (setOf ys) ∧ (setOf ys).Same (setOf xs) ∧ (mapOf ps).Same (mapOf qs) ∧
      Option.Rel Same (lastUnder ps (number 1)) (lastUnder qs (number 1)) := by
  intro layout xs ys ps qs
  have hnumber : ∀ x : Float, x.isNaN = false → (number x).Regular layout := fun _ h =>
    regular_of_held_nil rfl trivial h
  have hone := hnumber 1 (by decide +kernel)
  have htwo := hnumber 2 (by decide +kernel)
  have htext : ∀ s, (text s).Regular layout := fun s => regular_of_held_nil rfl trivial trivial
  have hxs : ∀ v ∈ xs, v.Regular layout := by simp [xs, hone, htwo]
  have hys : ∀ v ∈ ys, v.Regular layout := by simp [ys, hone, htwo]
  have hps : RegularPairs layout ps := by simp [RegularPairs, ps, hone, htwo, htext]
  have hqs : RegularPairs layout qs := by simp [RegularPairs, qs, hone, htwo, htext]
  have hmaps : (mapOf ps).Same (mapOf qs) := by
    show (mapOf ps).same (mapOf qs) = true
    decide +kernel
  obtain ⟨hsymm, -, -, hset, -, hmap⟩ := same_equivalence layout
  have hsets : (setOf xs).Same (setOf ys) := (hset xs ys hxs hys).2
    ⟨allIn_iff.1 (by decide +kernel), allIn_iff.1 (by decide +kernel)⟩
  exact ⟨⟨hxs, hys, hps, hqs⟩, hsets,
    hsymm _ _ (regular_setOf hxs).distinct (regular_setOf hys).distinct hsets, hmaps,
    (hmap ps qs hps hqs).1 hmaps _ hone⟩

end Value
end ReactiveLang
