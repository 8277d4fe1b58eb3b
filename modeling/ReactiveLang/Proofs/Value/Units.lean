import ReactiveLang.Measure
import Mathlib.Algebra.BigOperators.Group.List.Basic
import Mathlib.Algebra.Ring.Int.Defs
import Mathlib.Data.List.Sort
import Mathlib.Data.String.Basic

/-!
# The group of units

A unit that was built holds its dimensions in ascending order, and none of them with the power zero
(`Canonical`): each operation leaves out what cancels. So the exponents settle the unit
(`Canonical.eq_of_exponent`), and each law of units is one of integers, a dimension at a time.
Nothing is asked of the size of the exponents.

* `exponent_ofExponents`, `exponent_product`, `exponent_inverse`: the exponents of what is built.
* `Built.canonical`: a built unit is canonical.
* `group_laws`: the built units are an abelian group, and each is written in one way only.
-/

namespace ReactiveLang.MeasureUnit

variable {a b c u : MeasureUnit} {entries pairs : List (String × Int)} {dimension : String}

/-- The units that can be built. -/
inductive Built : MeasureUnit → Prop where
  | unitless : Built unitless
  | ofDimension (dimension : String) : Built (ofDimension dimension)
  | ofExponents (pairs : List (String × Int)) : Built (ofExponents pairs)
  | product {a b : MeasureUnit} : Built a → Built b → Built (a.product b)
  | quotient {a b : MeasureUnit} : Built a → Built b → Built (a.quotient b)
  | inverse {u : MeasureUnit} : Built u → Built u.inverse

/-- The dimensions ascend, and none has the power zero. -/
structure Canonical (u : MeasureUnit) : Prop where
  sorted : Keyed.Sorted u.exponents
  nonzero : ∀ e ∈ u.exponents, e.2 ≠ 0

/-- The sum of the powers that pairs list for a dimension. -/
def listed (dimension : String) (pairs : List (String × Int)) : Int :=
  ((pairs.filter fun p => p.1 = dimension).map Prod.snd).sum

/-! ## Listed powers -/

@[simp] theorem listed_nil (dimension : String) : listed dimension [] = 0 := rfl

theorem listed_cons (dimension : String) (p : String × Int) (rest : List (String × Int)) :
    listed dimension (p :: rest) =
      (if p.1 = dimension then p.2 else 0) + listed dimension rest := by
  by_cases h : p.1 = dimension <;> simp [listed, h]

theorem listed_perm {other : List (String × Int)} (h : pairs.Perm other) (dimension : String) :
    listed dimension pairs = listed dimension other :=
  ((h.filter _).map _).sum_eq

theorem listed_eq_zero (h : ∀ p ∈ pairs, p.1 ≠ dimension) : listed dimension pairs = 0 := by
  have hnone : (pairs.filter fun p => p.1 = dimension) = [] :=
    List.filter_eq_nil_iff.2 fun p hp => by simpa using h p hp
  rw [listed, hnone, List.map_nil, List.sum_nil]

/-- What is zero adds nothing. -/
theorem listed_ofEntries (dimension : String) (entries : List (String × Int)) :
    listed dimension (ofEntries entries).exponents = listed dimension entries := by
  induction entries with
  | nil => rfl
  | cons e rest ih =>
    rw [listed_cons, ← ih]
    by_cases h : e.2 = 0
    · simp [ofEntries, h]
    · simp [ofEntries, h, listed_cons]

/-! ## Exponents of entries -/

theorem exponent_cons (e : String × Int) (rest : List (String × Int)) (dimension : String) :
    exponent ⟨e :: rest⟩ dimension =
      if e.1 = dimension then e.2 else exponent ⟨rest⟩ dimension := by
  obtain ⟨name, power⟩ := e
  by_cases h : name = dimension
  · simp [exponent, h]
  · have hb : (dimension == name) = false := beq_false_of_ne (Ne.symm h)
    simp [exponent, List.lookup_cons, h, hb]

/-- Of sorted entries only one is about a dimension. -/
theorem exponent_eq_listed (h : Keyed.Sorted entries) (dimension : String) :
    exponent ⟨entries⟩ dimension = listed dimension entries := by
  induction entries with
  | nil => rfl
  | cons e rest ih =>
    obtain ⟨he, hrest⟩ := List.pairwise_cons.1 h
    rw [exponent_cons, listed_cons]
    split
    · rename_i heq
      -- the others are about greater dimensions
      have hzero : listed dimension rest = 0 := listed_eq_zero fun p hp => heq ▸ (he p hp).ne'
      rw [hzero, Int.add_zero]
    · rw [ih hrest, Int.zero_add]

theorem exponent_raise (entries : List (String × Int)) (raised : String) (power : Int)
    (dimension : String) :
    exponent ⟨raise entries raised power⟩ dimension =
      exponent ⟨entries⟩ dimension + if raised = dimension then power else 0 := by
  unfold exponent raise
  by_cases h : raised = dimension
  · subst h
    simp
  · simp [Keyed.lookup_insert_of_ne (Ne.symm h), h]

theorem exponent_foldl_raise (entries pairs : List (String × Int)) (dimension : String) :
    exponent ⟨pairs.foldl (fun entries p => raise entries p.1 p.2) entries⟩ dimension =
      exponent ⟨entries⟩ dimension + listed dimension pairs := by
  induction pairs generalizing entries with
  | nil => simp
  | cons p rest ih => rw [List.foldl_cons, ih, exponent_raise, listed_cons, Int.add_assoc]

theorem sorted_raise (h : Keyed.Sorted entries) (raised : String) (power : Int) :
    Keyed.Sorted (raise entries raised power) :=
  Keyed.sorted_insert (fun _ _ _ => lt_trans) (fun x y => or_left_comm.1 (lt_trichotomy x y)) _ _ h

theorem sorted_foldl_raise (h : Keyed.Sorted entries) (pairs : List (String × Int)) :
    Keyed.Sorted (pairs.foldl (fun entries p => raise entries p.1 p.2) entries) := by
  induction pairs generalizing entries with
  | nil => exact h
  | cons p rest ih => exact ih (sorted_raise h p.1 p.2)

/-! ## Canonical units -/

theorem canonical_ofEntries (h : Keyed.Sorted entries) : (ofEntries entries).Canonical where
  sorted := List.Pairwise.filter _ h
  nonzero e he := by simpa using (List.mem_filter.1 he).2

theorem exponent_ofEntries (h : Keyed.Sorted entries) (dimension : String) :
    (ofEntries entries).exponent dimension = exponent ⟨entries⟩ dimension := by
  rw [exponent_eq_listed h, ← listed_ofEntries]
  exact exponent_eq_listed (canonical_ofEntries h).sorted dimension

theorem canonical_unitless : unitless.Canonical := ⟨.nil, nofun⟩

theorem canonical_ofExponents (pairs : List (String × Int)) : (ofExponents pairs).Canonical :=
  canonical_ofEntries (sorted_foldl_raise .nil pairs)

theorem Canonical.product (ha : a.Canonical) (b : MeasureUnit) : (a.product b).Canonical :=
  canonical_ofEntries (sorted_foldl_raise ha.sorted b.exponents)

theorem Canonical.inverse (h : u.Canonical) : u.inverse.Canonical where
  sorted := List.pairwise_map.2 h.sorted
  nonzero e he := by
    obtain ⟨kept, hkept, rfl⟩ := List.mem_map.1 he
    exact Int.neg_ne_zero.2 (h.nonzero kept hkept)

/-- Every operation leaves out what cancels. -/
theorem Built.canonical (h : u.Built) : u.Canonical := by
  induction h with
  | unitless => exact canonical_unitless
  | ofDimension | ofExponents => exact canonical_ofExponents _
  | product _ _ ha _ => exact ha.product _
  | quotient _ _ ha _ => exact ha.product _
  | inverse _ h => exact h.inverse

/-- The entries of a canonical unit are its exponents that are not zero. -/
theorem Canonical.mem_iff (h : u.Canonical) {power : Int} :
    (dimension, power) ∈ u.exponents ↔ power ≠ 0 ∧ u.exponent dimension = power := by
  rw [Keyed.Sorted.mem_iff lt_irrefl h.sorted, exponent]
  cases hl : u.exponents.lookup dimension with
  | none => exact ⟨nofun, fun he => absurd he.2.symm he.1⟩
  | some found =>
    have hne : found ≠ 0 := h.nonzero _ (Keyed.mem_of_lookup hl)
    simp only [Option.some.injEq, Option.getD_some]
    exact ⟨fun he => ⟨he ▸ hne, he⟩, And.right⟩

/-- The exponents settle a canonical unit. -/
theorem Canonical.eq_of_exponent (ha : a.Canonical) (hb : b.Canonical)
    (h : ∀ dimension, a.exponent dimension = b.exponent dimension) : a = b := by
  have : Std.Irrefl fun x y : String × Int => x.1 < y.1 := ⟨fun x => lt_irrefl x.1⟩
  have : Std.Antisymm fun x y : String × Int => x.1 < y.1 :=
    ⟨fun x y hxy hyx => absurd hyx (lt_asymm hxy)⟩
  have hmem : ∀ e, e ∈ a.exponents ↔ e ∈ b.exponents := fun e => by
    rw [ha.mem_iff, hb.mem_iff, h]
  have hentries : a.exponents = b.exponents := ha.sorted.eq_of_mem_iff hb.sorted hmem
  cases a
  cases b
  simpa using hentries

/-! ## The exponents of what is built -/

@[simp] theorem exponent_unitless (dimension : String) : unitless.exponent dimension = 0 := rfl

theorem exponent_ofExponents (pairs : List (String × Int)) (dimension : String) :
    (ofExponents pairs).exponent dimension = listed dimension pairs := by
  rw [ofExponents, exponent_ofEntries (sorted_foldl_raise .nil pairs), exponent_foldl_raise]
  exact Int.zero_add _

theorem exponent_product (ha : a.Canonical) (hb : b.Canonical) (dimension : String) :
    (a.product b).exponent dimension = a.exponent dimension + b.exponent dimension := by
  rw [product, exponent_ofEntries (sorted_foldl_raise ha.sorted _), exponent_foldl_raise,
    ← exponent_eq_listed hb.sorted]

theorem exponent_inverse (u : MeasureUnit) (dimension : String) :
    u.inverse.exponent dimension = -u.exponent dimension := by
  obtain ⟨entries⟩ := u
  induction entries with
  | nil => rfl
  | cons e rest ih =>
    rw [exponent_cons, apply_ite Neg.neg, ← ih]
    exact exponent_cons (e.1, -e.2) _ dimension

/-! ## The group -/

section
variable (ha : a.Canonical)
include ha

theorem product_comm (hb : b.Canonical) : a.product b = b.product a :=
  (ha.product b).eq_of_exponent (hb.product a) fun dimension => by
    rw [exponent_product ha hb, exponent_product hb ha, Int.add_comm]

theorem product_assoc (hb : b.Canonical) (hc : c.Canonical) :
    (a.product b).product c = a.product (b.product c) :=
  ((ha.product b).product c).eq_of_exponent (ha.product _) fun dimension => by
    rw [exponent_product (ha.product b) hc, exponent_product ha hb,
      exponent_product ha (hb.product c), exponent_product hb hc, Int.add_assoc]

theorem product_unitless : a.product unitless = a :=
  (ha.product _).eq_of_exponent ha fun dimension => by
    rw [exponent_product ha canonical_unitless, exponent_unitless, Int.add_zero]

theorem product_inverse : a.product a.inverse = unitless :=
  (ha.product _).eq_of_exponent canonical_unitless fun dimension => by
    rw [exponent_product ha ha.inverse, exponent_inverse, exponent_unitless, Int.add_right_neg]

end

/-- Multiplication is the product of units. -/
instance : CommGroup {u : MeasureUnit // u.Built} where
  mul x y := ⟨x.1.product y.1, x.2.product y.2⟩
  one := ⟨unitless, .unitless⟩
  inv x := ⟨x.1.inverse, x.2.inverse⟩
  div x y := ⟨x.1.quotient y.1, x.2.quotient y.2⟩
  div_eq_mul_inv _ _ := rfl
  mul_comm x y := Subtype.ext (product_comm x.2.canonical y.2.canonical)
  mul_assoc x y z := Subtype.ext (product_assoc x.2.canonical y.2.canonical z.2.canonical)
  mul_one x := Subtype.ext (product_unitless x.2.canonical)
  one_mul x := Subtype.ext <|
    (product_comm canonical_unitless x.2.canonical).trans (product_unitless x.2.canonical)
  inv_mul_cancel x := Subtype.ext <|
    (product_comm x.2.inverse.canonical x.2.canonical).trans (product_inverse x.2.canonical)

/-- The built units are an abelian group, and each is written in one way only: its dimensions
ascend, none with the power zero, and the exponents settle it. Listed pairs are added up in whatever
order they come. A product adds exponents; it is commutative and associative, with the unit of plain
numbers as identity, and a quotient is the product with the inverse. -/
theorem group_laws (ha : a.Built) (hb : b.Built) (hc : c.Built) :
    (Keyed.Sorted a.exponents ∧ ∀ e ∈ a.exponents, e.2 ≠ 0) ∧
      (a = b ↔ ∀ dimension, a.exponent dimension = b.exponent dimension) ∧
      (∀ pairs dimension, (ofExponents pairs).exponent dimension = listed dimension pairs) ∧
      (∀ pairs other, pairs.Perm other → ofExponents pairs = ofExponents other) ∧
      a.product b = b.product a ∧ (a.product b).product c = a.product (b.product c) ∧
      a.product unitless = a ∧ unitless.product a = a ∧ a.product a.inverse = unitless ∧
      a.quotient b = a.product b.inverse ∧ a.inverse.inverse = a ∧
      (a.product b).inverse = a.inverse.product b.inverse ∧
      ∀ dimension,
        (a.product b).exponent dimension = a.exponent dimension + b.exponent dimension := by
  let x : {u : MeasureUnit // u.Built} := ⟨a, ha⟩
  let y : {u : MeasureUnit // u.Built} := ⟨b, hb⟩
  let z : {u : MeasureUnit // u.Built} := ⟨c, hc⟩
  have hequal : a = b ↔ ∀ dimension, a.exponent dimension = b.exponent dimension :=
    ⟨fun h _ => h ▸ rfl, ha.canonical.eq_of_exponent hb.canonical⟩
  have horder : ∀ pairs other, pairs.Perm other → ofExponents pairs = ofExponents other := by
    intro pairs other h
    have hsums : ∀ dimension,
        (ofExponents pairs).exponent dimension = (ofExponents other).exponent dimension := by
      intro dimension
      rw [exponent_ofExponents, exponent_ofExponents, listed_perm h]
    exact (canonical_ofExponents pairs).eq_of_exponent (canonical_ofExponents other) hsums
  exact ⟨⟨ha.canonical.sorted, ha.canonical.nonzero⟩, hequal, exponent_ofExponents, horder,
    congrArg Subtype.val (mul_comm x y), congrArg Subtype.val (mul_assoc x y z),
    congrArg Subtype.val (mul_one x), congrArg Subtype.val (one_mul x),
    congrArg Subtype.val (mul_inv_cancel x), congrArg Subtype.val (div_eq_mul_inv x y),
    congrArg Subtype.val (inv_inv x), congrArg Subtype.val (mul_inv x y),
    exponent_product ha.canonical hb.canonical⟩

/-- An area by a time, listed with one dimension twice and one that cancels, and a time by a length;
their product is a length. -/
theorem group_laws_length :
    let listing : List (String × Int) := [("s", -1), ("m", 1), ("kg", 2), ("m", 1), ("kg", -2)]
    let flow := ofExponents listing
    let pace := (ofDimension "s").quotient (ofDimension "m")
    let rate := (ofDimension "ms").inverse
    (flow.Built ∧ pace.Built ∧ rate.Built) ∧
      flow.exponents = [("m", 2), ("s", -1)] ∧ flow = ofExponents listing.reverse ∧
      flow.product pace = ofDimension "m" ∧ flow.product pace = pace.product flow ∧
      (flow.product pace).product rate = flow.product (pace.product rate) ∧
      flow.product flow.inverse = unitless ∧ flow.inverse.inverse = flow ∧
      (flow.product pace).inverse = flow.inverse.product pace.inverse ∧
      (flow.product pace).exponent "m" = 2 + -1 := by
  intro listing flow pace rate
  have hflow : flow.Built := .ofExponents listing
  have hpace : pace.Built := .quotient (.ofDimension "s") (.ofDimension "m")
  have hrate : rate.Built := .inverse (.ofDimension "ms")
  obtain ⟨-, -, -, horder, hcomm, hassoc, -, -, hcancel, -, htwice, hdistrib, hsum⟩ :=
    group_laws hflow hpace hrate
  exact ⟨⟨hflow, hpace, hrate⟩, by decide +kernel, horder _ _ listing.reverse_perm.symm,
    by decide +kernel, hcomm, hassoc, hcancel, htwice, hdistrib,
    (hsum "m").trans (by decide +kernel)⟩

end ReactiveLang.MeasureUnit
