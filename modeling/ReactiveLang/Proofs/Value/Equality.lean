import Mathlib.Data.List.Forall2
import ReactiveLang.Proofs.Value.Induction
import ReactiveLang.Proofs.Value.Proper

/-!
# Equality as a partial equivalence

Equality looks for the items of the first set in the second one, and for the inputs of the first
instance. It can be turned around all the same, where the items of a set and the keys of a map are
different and instances of one structure have the same inputs: then as many items have as many
equals (`mem_related_of_length`). A number that is not one equals nothing, not even itself.

* `Number.beq_symm`, `Number.beq_trans`: so do numbers.
* `same_list_iff`, `same_set_iff`, `same_map_iff`, `same_instanceOf_iff`, `same_exception_iff`: when
  values that hold others are equal.
* `comparable`, `Value.same_comm`: equality of values can be turned around and followed on.
* `Proper.wellFormed`: the collections in a proper value are well formed, at any depth.
-/

namespace ReactiveLang

/-! ## Numbers -/

namespace Number

open Float.Model (UnpackedFloat)

/-- The two stand for one number. Zeros do whatever their signs are, and what is no number does
not. -/
inductive Alike : UnpackedFloat → UnpackedFloat → Prop where
  | infinity (sign : UnpackedFloat.Sign) : Alike (.infinity sign) (.infinity sign)
  | zero (sign sign' : UnpackedFloat.Sign) : Alike (.zero sign) (.zero sign')
  | finite (sign : UnpackedFloat.Sign) (mantissa : Nat) (exponent : Int) (h : 0 < mantissa) :
      Alike (.finite sign mantissa exponent h) (.finite sign mantissa exponent h)

section
variable {a b c : UnpackedFloat}

theorem alike_of_compare (h : a.compare b = some .eq) : Alike a b := by
  have hparts : ∀ {e e' : Int} {m m' : Nat},
      (compare e e').then (compare m m') = .eq → e = e' ∧ m = m' := by
    intro e e' m m' h
    obtain ⟨he, hm⟩ := Ordering.then_eq_eq.1 h
    exact ⟨Int.compare_eq_eq.1 he, Nat.compare_eq_eq.1 hm⟩
  cases a with
  | notANumber => cases h
  | infinity s =>
    cases b with
    | infinity s' => cases s <;> cases s' <;> first | exact .infinity _ | cases h
    | notANumber => cases h
    | zero | finite => cases s <;> cases h
  | zero s =>
    cases b with
    | zero => exact .zero _ _
    | notANumber => cases h
    | infinity s' | finite s' => cases s' <;> cases h
  | finite s m e hm =>
    cases b with
    | notANumber => cases h
    | zero => cases s <;> cases h
    | infinity s' => cases s' <;> cases h
    | finite s' m' e' hm' =>
      cases s <;> cases s'
      case negative.negative =>
        obtain ⟨rfl, rfl⟩ := hparts (Ordering.swap_eq_eq.1 (Option.some.inj h))
        exact .finite _ _ _ _
      case positive.positive =>
        obtain ⟨rfl, rfl⟩ := hparts (Option.some.inj h)
        exact .finite _ _ _ _
      all_goals cases h

theorem compare_of_alike (h : Alike a b) : a.compare b = some .eq := by
  cases h with
  | infinity sign => cases sign <;> rfl
  | zero sign sign' => rfl
  | finite sign m e h =>
    have hsame : (compare e e).then (compare m m) = .eq :=
      Ordering.then_eq_eq.2 ⟨Int.compare_eq_eq.2 rfl, Nat.compare_eq_eq.2 rfl⟩
    cases sign with
    | positive => exact congrArg some hsame
    | negative => exact congrArg some (Ordering.swap_eq_eq.2 hsame)

theorem Alike.symm (h : Alike a b) : Alike b a := by
  cases h with
  | infinity sign => exact .infinity sign
  | zero sign sign' => exact .zero sign' sign
  | finite sign m e h => exact .finite sign m e h

theorem Alike.trans (h : Alike a b) (h' : Alike b c) : Alike a c := by
  cases h with
  | infinity sign => exact h'
  | zero sign sign' =>
    cases h' with
    | zero => exact .zero _ _
  | finite sign m e h => exact h'

end

theorem beq_iff (x y : Float) : (x == y) = true ↔ Alike x.toModel.unpack y.toModel.unpack := by
  have hbeq : (x == y) = (x.toModel.unpack.compare y.toModel.unpack == some .eq) := rfl
  rw [hbeq, beq_iff_eq]
  exact ⟨alike_of_compare, compare_of_alike⟩

theorem beq_symm {x y : Float} (h : (x == y) = true) : (y == x) = true :=
  (beq_iff y x).2 ((beq_iff x y).1 h).symm

theorem beq_trans {x y z : Float} (h : (x == y) = true) (h' : (y == z) = true) :
    (x == z) = true :=
  (beq_iff x z).2 (((beq_iff x y).1 h).trans ((beq_iff y z).1 h'))

end Number

/-! ## Related lists and options -/

section
variable {α β : Type} {R : α → β → Prop}

theorem forall₂_swap {S : β → α → Prop} {xs : List α} {ys : List β} (h : List.Forall₂ R xs ys)
    (himp : ∀ x ∈ xs, ∀ y ∈ ys, R x y → S y x) : List.Forall₂ S ys xs := by
  induction h with
  | nil => exact .nil
  | cons hr _ ih =>
    refine .cons (himp _ (by simp) _ (by simp) hr) (ih fun x hx y hy => ?_)
    exact himp x (List.mem_cons_of_mem _ hx) y (List.mem_cons_of_mem _ hy)

theorem forall₂_compose {γ : Type} {S : β → γ → Prop} {T : α → γ → Prop} {xs : List α}
    {ys : List β} {zs : List γ} (h : List.Forall₂ R xs ys) (h' : List.Forall₂ S ys zs)
    (himp : ∀ x ∈ xs, ∀ y ∈ ys, ∀ z ∈ zs, R x y → S y z → T x z) : List.Forall₂ T xs zs := by
  induction h generalizing zs with
  | nil =>
    cases h'
    exact .nil
  | cons hr _ ih =>
    cases h' with
    | cons hs h' =>
      refine .cons (himp _ (by simp) _ (by simp) _ (by simp) hr hs) (ih h' fun x hx y hy z hz => ?_)
      exact himp x (List.mem_cons_of_mem _ hx) y (List.mem_cons_of_mem _ hy) z
        (List.mem_cons_of_mem _ hz)

theorem rel_swap {S : β → α → Prop} {o : Option α} {p : Option β} (h : Option.Rel R o p)
    (himp : ∀ x y, o = some x → p = some y → R x y → S y x) : Option.Rel S p o := by
  cases h with
  | none => exact .none
  | some h => exact .some (himp _ _ rfl rfl h)

theorem rel_compose {γ : Type} {S : β → γ → Prop} {T : α → γ → Prop} {o : Option α} {p : Option β}
    {q : Option γ} (h : Option.Rel R o p) (h' : Option.Rel S p q)
    (himp : ∀ x y z, o = some x → p = some y → q = some z → R x y → S y z → T x z) :
    Option.Rel T o q := by
  cases h with
  | none =>
    cases h'
    exact .none
  | some h =>
    cases h' with
    | some h' => exact .some (himp _ _ _ rfl rfl rfl h h')

/-- If each of some items is related to one of at most as many others, and no two of them to the
same one, then each of the others is related to one of them. -/
theorem mem_related_of_length {xs : List α} {ys : List β} (hlen : ys.length ≤ xs.length)
    (h : ∀ x ∈ xs, ∃ y ∈ ys, R x y)
    (hdiff : xs.Pairwise fun x x' => ∀ y ∈ ys, R x y → ¬ R x' y) : ∀ y ∈ ys, ∃ x ∈ xs, R x y := by
  induction xs generalizing ys with
  | nil =>
    intro y hy
    rw [List.length_eq_zero_iff.1 (Nat.le_zero.1 hlen)] at hy
    cases hy
  | cons x rest ih =>
    obtain ⟨hx, hrest⟩ := List.pairwise_cons.1 hdiff
    obtain ⟨partner, hp, hr⟩ := h x (by simp)
    obtain ⟨before, after, rfl⟩ := List.append_of_mem hp
    have hsub : ∀ y ∈ before ++ after, y ∈ before ++ partner :: after := fun y hy => by
      rcases List.mem_append.1 hy with hy | hy
      · simp [hy]
      · simp [hy]
    have hothers : ∀ x' ∈ rest, ∃ y ∈ before ++ after, R x' y := by
      intro x' hx'
      obtain ⟨y, hy, hr'⟩ := h x' (List.mem_cons_of_mem _ hx')
      rcases List.mem_append.1 hy with hb | ha
      · exact ⟨y, List.mem_append_left _ hb, hr'⟩
      rcases List.mem_cons.1 ha with rfl | ha
      · exact absurd hr' (hx x' hx' y hp hr)
      · exact ⟨y, List.mem_append_right _ ha, hr'⟩
    have hall := ih (by simp at hlen ⊢; omega) hothers
      (hrest.imp fun h y hy => h y (hsub y hy))
    intro y hy
    rcases List.mem_append.1 hy with hb | ha
    · obtain ⟨x', hx', hr'⟩ := hall y (List.mem_append_left _ hb)
      exact ⟨x', List.mem_cons_of_mem _ hx', hr'⟩
    rcases List.mem_cons.1 ha with rfl | ha
    · exact ⟨x, by simp, hr⟩
    · obtain ⟨x', hx', hr'⟩ := hall y (List.mem_append_right _ ha)
      exact ⟨x', List.mem_cons_of_mem _ hx', hr'⟩

end

namespace Value

/-! ## When values are equal -/

/-- Equality as a relation. -/
def Same (a b : Value) : Prop := a.same b = true

variable {b : Value}

theorem sameItems_iff {xs ys : List Value} (hlen : xs.length = ys.length) :
    sameItems xs ys = true ↔ List.Forall₂ Same xs ys := by
  induction xs generalizing ys with
  | nil =>
    cases ys with
    | nil => simp [sameItems]
    | cons => simp at hlen
  | cons x xs ih =>
    cases ys with
    | nil => simp at hlen
    | cons y ys =>
      rw [sameItems, Bool.and_eq_true, ih (Nat.succ.inj hlen), List.forall₂_cons]
      rfl

theorem allIn_iff {xs ys : List Value} : allIn xs ys = true ↔ ∀ x ∈ xs, ∃ y ∈ ys, x.Same y := by
  induction xs with
  | nil => simp [allIn]
  | cons x xs ih =>
    rw [allIn, Bool.and_eq_true, ih, List.forall_mem_cons, List.any_eq_true]
    rfl

theorem entriesIn_iff {xs ys : List (Value × Value)} : entriesIn xs ys = true ↔
    ∀ d ∈ xs, ∃ e ∈ ys, d.1.Same e.1 ∧ d.2.Same e.2 := by
  induction xs with
  | nil => simp [entriesIn]
  | cons d xs ih =>
    obtain ⟨k, v⟩ := d
    rw [entriesIn, Bool.and_eq_true, ih, List.forall_mem_cons, List.any_eq_true]
    simp only [Bool.and_eq_true]
    rfl

theorem sameAt_iff {bindings : List (String × Value)} {name : String} {other : Option Value} :
    sameAt bindings name other = true ↔ Option.Rel Same (bindings.lookup name) other := by
  induction bindings with
  | nil => cases other <;> simp [sameAt]
  | cons binding rest ih =>
    obtain ⟨n, v⟩ := binding
    by_cases hn : name = n
    · subst hn
      cases other <;> simp [sameAt, Same]
    · have hne : (name == n) = false := beq_false_of_ne hn
      have hlookup : List.lookup name ((n, v) :: rest) = rest.lookup name := by
        rw [List.lookup_cons, hne]
      rw [hlookup, ← ih]
      cases other <;> simp [sameAt, hn]

theorem same_list_iff {xs : List Value} :
    (list xs).Same b ↔ ∃ ys, b = list ys ∧ List.Forall₂ Same xs ys := by
  unfold Same
  cases b with
  | list ys =>
    simp only [same, Bool.and_eq_true, decide_eq_true_eq, list.injEq, exists_eq_left']
    constructor
    · rintro ⟨hlen, h⟩
      exact (sameItems_iff hlen).1 h
    · exact fun h => ⟨h.length_eq, (sameItems_iff h.length_eq).2 h⟩
  | _ => simp [same]

theorem same_set_iff {xs : List Value} : (set xs).Same b ↔
    ∃ ys, b = set ys ∧ xs.length = ys.length ∧ ∀ x ∈ xs, ∃ y ∈ ys, x.Same y := by
  unfold Same
  cases b with
  | set ys =>
    simp only [same, Bool.and_eq_true, decide_eq_true_eq, set.injEq, exists_eq_left', allIn_iff]
    rfl
  | _ => simp [same]

theorem same_map_iff {xs : List (Value × Value)} : (map xs).Same b ↔
    ∃ ys, b = map ys ∧ xs.length = ys.length ∧
      ∀ d ∈ xs, ∃ e ∈ ys, d.1.Same e.1 ∧ d.2.Same e.2 := by
  unfold Same
  cases b with
  | map ys =>
    simp only [same, Bool.and_eq_true, decide_eq_true_eq, map.injEq, exists_eq_left', entriesIn_iff]
    rfl
  | _ => simp [same]

theorem same_instanceOf_iff {x : Instance Value} : (instanceOf x).Same b ↔
    ∃ y, b = instanceOf y ∧ x.definition = y.definition ∧
      ∀ n ∈ x.inputs, Option.Rel Same (x.bindings.lookup n) (y.bindings.lookup n) := by
  unfold Same
  cases b with
  | instanceOf y =>
    obtain ⟨definition, name, evaluation, inputs, bindings⟩ := x
    simp only [same, sameInstance, Bool.and_eq_true, decide_eq_true_eq, List.all_eq_true,
      instanceOf.injEq, exists_eq_left', sameAt_iff]
    rfl
  | _ => simp [same]

theorem sameKind_iff {k l : ExceptionKind Value} : sameKind k l = true ↔
    (∃ t v w, k = .typeMismatch t v ∧ l = .typeMismatch t w ∧ v.Same w) ∨
      k = l ∧ ∀ t v, k ≠ .typeMismatch t v := by
  cases k with
  | typeMismatch t v =>
    cases l with
    | typeMismatch s w =>
      simp only [sameKind, Bool.and_eq_true, decide_eq_true_eq]
      constructor
      · rintro ⟨rfl, h⟩
        exact .inl ⟨t, v, w, rfl, rfl, h⟩
      · rintro (⟨_, _, _, ⟨⟩, ⟨⟩, h⟩ | ⟨-, h⟩)
        · exact ⟨rfl, h⟩
        · exact absurd rfl (h t v)
    | _ => simp [sameKind]
  | _ => cases l <;> simp [sameKind]

theorem same_exception_iff {kind : ExceptionKind Value} {node : NodeId} :
    (exception kind node).Same b ↔ ∃ kind', b = exception kind' node ∧
      ((∃ t v w, kind = .typeMismatch t v ∧ kind' = .typeMismatch t w ∧ v.Same w) ∨
        kind = kind' ∧ ∀ t v, kind ≠ .typeMismatch t v) := by
  unfold Same
  cases b with
  | exception kind' node' =>
    rw [same, Bool.and_eq_true, decide_eq_true_eq, sameKind_iff]
    constructor
    · rintro ⟨h, rfl⟩
      exact ⟨kind', rfl, h⟩
    · rintro ⟨_, ⟨⟩, h⟩
      exact ⟨h, rfl⟩
  | _ => simp [same]

/-! ## Symmetry and transitivity -/

variable {layout : NodeId → List String} {a c : Value}

/-- Equality to the value can be turned around, and carried on from one value to the next. -/
structure Comparable (layout : NodeId → List String) (a : Value) : Prop where
  symm : ∀ b, b.Everywhere (Distinct layout) → a.Same b → b.Same a
  trans : ∀ b c, b.Everywhere (Distinct layout) → c.Everywhere (Distinct layout) → a.Same b →
    b.Same c → a.Same c

/-- What equals only itself. -/
theorem comparable_of_eq (h : ∀ b, a.Same b ↔ b = a) : Comparable layout a where
  symm b _ hs := by
    obtain rfl := (h b).1 hs
    exact hs
  trans b c _ _ hs hs' := by
    obtain rfl := (h b).1 hs
    exact hs'

theorem comparable_measurement (x : Float) (u : MeasureUnit) :
    Comparable layout (measurement x u) := by
  have hiff : ∀ (x : Float) (b : Value), (measurement x u).Same b ↔
      ∃ y, b = measurement y u ∧ (x == y) = true := by
    intro x b
    unfold Same
    cases b with
    | measurement y u' =>
      simp only [same, Bool.and_eq_true, decide_eq_true_eq]
      constructor
      · rintro ⟨h, rfl⟩
        exact ⟨y, rfl, h⟩
      · rintro ⟨_, ⟨⟩, h⟩
        exact ⟨h, rfl⟩
    | _ => simp [same]
  constructor
  · intro b _ h
    obtain ⟨y, rfl, hy⟩ := (hiff x b).1 h
    exact (hiff y _).2 ⟨x, rfl, Number.beq_symm hy⟩
  · intro b c _ _ h h'
    obtain ⟨y, rfl, hy⟩ := (hiff x b).1 h
    obtain ⟨z, rfl, hz⟩ := (hiff y c).1 h'
    exact (hiff x _).2 ⟨z, rfl, Number.beq_trans hy hz⟩

theorem comparable_list {items : List Value} (h : ∀ v ∈ items, Comparable layout v) :
    Comparable layout (list items) := by
  constructor
  · intro b hb hab
    obtain ⟨ys, rfl, hs⟩ := same_list_iff.1 hab
    have hys := (everywhere_list.1 hb).2
    exact same_list_iff.2 ⟨items, rfl, forall₂_swap hs fun x hx y hy => (h x hx).symm y (hys y hy)⟩
  · intro b c hb hc hab hbc
    obtain ⟨ys, rfl, hs⟩ := same_list_iff.1 hab
    obtain ⟨zs, rfl, hs'⟩ := same_list_iff.1 hbc
    have hys := (everywhere_list.1 hb).2
    have hzs := (everywhere_list.1 hc).2
    exact same_list_iff.2 ⟨zs, rfl, forall₂_compose hs hs' fun x hx y hy z hz =>
      (h x hx).trans y z (hys y hy) (hzs z hz)⟩

/-- Two items of a set do not equal the same value, so as many items have as many equals. -/
theorem comparable_set {items : List Value} (h : ∀ v ∈ items, Comparable layout v)
    (hitems : ∀ v ∈ items, v.Everywhere (Distinct layout))
    (hdiff : items.Pairwise fun a b => a.same b = false) : Comparable layout (set items) := by
  constructor
  · intro b hb hab
    obtain ⟨ys, rfl, hlen, hs⟩ := same_set_iff.1 hab
    have hys := (everywhere_set.1 hb).2
    have hone : items.Pairwise fun x x' => ∀ y ∈ ys, x.Same y → ¬ x'.Same y := by
      refine hdiff.imp_of_mem fun {x x'} hx hx' hne y hy hxy hxy' => ?_
      have hyx' : y.Same x' := (h x' hx').symm y (hys y hy) hxy'
      have hxx' : x.Same x' := (h x hx).trans y x' (hys y hy) (hitems x' hx') hxy hyx'
      rw [Same, hne] at hxx'
      cases hxx'
    refine same_set_iff.2 ⟨items, rfl, hlen.symm, fun y hy => ?_⟩
    obtain ⟨x, hx, hxy⟩ := mem_related_of_length (Nat.le_of_eq hlen.symm) hs hone y hy
    exact ⟨x, hx, (h x hx).symm y (hys y hy) hxy⟩
  · intro b c hb hc hab hbc
    obtain ⟨ys, rfl, hlen, hs⟩ := same_set_iff.1 hab
    obtain ⟨zs, rfl, hlen', hs'⟩ := same_set_iff.1 hbc
    have hys := (everywhere_set.1 hb).2
    have hzs := (everywhere_set.1 hc).2
    refine same_set_iff.2 ⟨zs, rfl, hlen.trans hlen', fun x hx => ?_⟩
    obtain ⟨y, hy, hxy⟩ := hs x hx
    obtain ⟨z, hz, hyz⟩ := hs' y hy
    exact ⟨z, hz, (h x hx).trans y z (hys y hy) (hzs z hz) hxy hyz⟩

/-- So it is with the entries of a map, by their keys. -/
theorem comparable_map {entries : List (Value × Value)}
    (h : ∀ e ∈ entries, Comparable layout e.1 ∧ Comparable layout e.2)
    (hentries : ∀ e ∈ entries, e.1.Everywhere (Distinct layout) ∧ e.2.Everywhere (Distinct layout))
    (hdiff : entries.Pairwise fun d e => d.1.same e.1 = false) :
    Comparable layout (map entries) := by
  constructor
  · intro b hb hab
    obtain ⟨ys, rfl, hlen, hs⟩ := same_map_iff.1 hab
    have hys := (everywhere_map.1 hb).2
    have hone : entries.Pairwise fun d d' => ∀ e ∈ ys, d.1.Same e.1 ∧ d.2.Same e.2 →
        ¬ (d'.1.Same e.1 ∧ d'.2.Same e.2) := by
      refine hdiff.imp_of_mem fun {d d'} hd hd' hne e he hde hde' => ?_
      have hkey : e.1.Same d'.1 := (h d' hd').1.symm e.1 (hys e he).1 hde'.1
      have hkeys : d.1.Same d'.1 :=
        (h d hd).1.trans e.1 d'.1 (hys e he).1 (hentries d' hd').1 hde.1 hkey
      rw [Same, hne] at hkeys
      cases hkeys
    refine same_map_iff.2 ⟨entries, rfl, hlen.symm, fun e he => ?_⟩
    obtain ⟨d, hd, hk, hv⟩ := mem_related_of_length (Nat.le_of_eq hlen.symm) hs hone e he
    exact ⟨d, hd, (h d hd).1.symm e.1 (hys e he).1 hk, (h d hd).2.symm e.2 (hys e he).2 hv⟩
  · intro b c hb hc hab hbc
    obtain ⟨ys, rfl, hlen, hs⟩ := same_map_iff.1 hab
    obtain ⟨zs, rfl, hlen', hs'⟩ := same_map_iff.1 hbc
    have hys := (everywhere_map.1 hb).2
    have hzs := (everywhere_map.1 hc).2
    refine same_map_iff.2 ⟨zs, rfl, hlen.trans hlen', fun d hd => ?_⟩
    obtain ⟨e, he, hk, hv⟩ := hs d hd
    obtain ⟨g, hg, hk', hv'⟩ := hs' e he
    exact ⟨g, hg, (h d hd).1.trans e.1 g.1 (hys e he).1 (hzs g hg).1 hk hk',
      (h d hd).2.trans e.2 g.2 (hys e he).2 (hzs g hg).2 hv hv'⟩

/-- Instances of one structure have the same inputs, so it does not matter whose are compared. -/
theorem comparable_instanceOf {object : Instance Value}
    (h : ∀ b ∈ object.bindings, Comparable layout b.2)
    (hinputs : object.inputs = layout object.definition) :
    Comparable layout (instanceOf object) := by
  have hbound : ∀ n v, object.bindings.lookup n = some v → Comparable layout v :=
    fun n v hl => h _ (Keyed.mem_of_lookup hl)
  have hbindings : ∀ {y : Instance Value}, (instanceOf y).Everywhere (Distinct layout) →
      y.inputs = layout y.definition ∧ ∀ n v, y.bindings.lookup n = some v →
        v.Everywhere (Distinct layout) := fun hy =>
    ⟨(everywhere_instanceOf.1 hy).1, fun n v hl =>
      (everywhere_instanceOf.1 hy).2 _ (Keyed.mem_of_lookup hl)⟩
  constructor
  · intro b hb hab
    obtain ⟨y, rfl, hdef, hs⟩ := same_instanceOf_iff.1 hab
    obtain ⟨hyinputs, hy⟩ := hbindings hb
    refine same_instanceOf_iff.2 ⟨object, rfl, hdef.symm, fun n hn => ?_⟩
    have hrel := hs n (by rw [hinputs, hdef, ← hyinputs]; exact hn)
    exact rel_swap hrel fun v w hv hw => (hbound n v hv).symm w (hy n w hw)
  · intro b c hb hc hab hbc
    obtain ⟨y, rfl, hdef, hs⟩ := same_instanceOf_iff.1 hab
    obtain ⟨z, rfl, hdef', hs'⟩ := same_instanceOf_iff.1 hbc
    obtain ⟨hyinputs, hy⟩ := hbindings hb
    obtain ⟨-, hz⟩ := hbindings hc
    refine same_instanceOf_iff.2 ⟨z, rfl, hdef.trans hdef', fun n hn => ?_⟩
    have hrel := hs n hn
    have hrel' := hs' n (by rw [hyinputs, ← hdef, ← hinputs]; exact hn)
    exact rel_compose hrel hrel' fun v w u hv hw hu =>
      (hbound n v hv).trans w u (hy n w hw) (hz n u hu)

theorem comparable_exception {kind : ExceptionKind Value} {node : NodeId}
    (h : ∀ expected v, kind = .typeMismatch expected v → Comparable layout v) :
    Comparable layout (exception kind node) := by
  constructor
  · intro b hb hab
    obtain ⟨kind', rfl, hs⟩ := same_exception_iff.1 hab
    refine same_exception_iff.2 ⟨kind, rfl, ?_⟩
    rcases hs with ⟨t, v, w, rfl, rfl, hvw⟩ | ⟨rfl, hplain⟩
    · have hw := (everywhere_exception.1 hb).2 t w rfl
      exact .inl ⟨t, w, v, rfl, rfl, (h t v rfl).symm w hw hvw⟩
    · exact .inr ⟨rfl, hplain⟩
  · intro b c hb hc hab hbc
    obtain ⟨kind', rfl, hs⟩ := same_exception_iff.1 hab
    obtain ⟨kind'', rfl, hs'⟩ := same_exception_iff.1 hbc
    refine same_exception_iff.2 ⟨kind'', rfl, ?_⟩
    rcases hs with ⟨t, v, w, rfl, rfl, hvw⟩ | ⟨rfl, hplain⟩
    · rcases hs' with ⟨_, _, u, ⟨⟩, rfl, hwu⟩ | ⟨-, hplain⟩
      · have hw := (everywhere_exception.1 hb).2 t w rfl
        have hu := (everywhere_exception.1 hc).2 t u rfl
        exact .inl ⟨t, v, u, rfl, rfl, (h t v rfl).trans w u hw hu hvw hwu⟩
      · exact absurd rfl (hplain t w)
    · exact hs'.imp (fun ⟨t, _, _, ht, _⟩ => absurd ht (hplain t _)) id

theorem comparable (ha : a.Everywhere (Distinct layout)) : Comparable layout a := by
  induction a using induct with
  | nothing => exact comparable_of_eq fun b => by cases b <;> simp [Same, same]
  | boolean x => exact comparable_of_eq fun b => by cases b <;> simp [Same, same, eq_comm]
  | text s => exact comparable_of_eq fun b => by cases b <;> simp [Same, same, eq_comm]
  | stream id => exact comparable_of_eq fun b => by cases b <;> simp [Same, same, eq_comm]
  | function f => exact comparable_of_eq fun b => by cases b <;> simp [Same, same, eq_comm]
  | measurement x u => exact comparable_measurement x u
  | list items ih =>
    exact comparable_list fun v hv => ih v hv ((everywhere_list.1 ha).2 v hv)
  | set items ih =>
    obtain ⟨hdiff, hitems⟩ := everywhere_set.1 ha
    exact comparable_set (fun v hv => ih v hv (hitems v hv)) hitems hdiff
  | map entries ih =>
    obtain ⟨hdiff, hentries⟩ := everywhere_map.1 ha
    exact comparable_map (fun e he => ⟨(ih e he).1 (hentries e he).1,
      (ih e he).2 (hentries e he).2⟩) hentries hdiff
  | instanceOf object ih =>
    obtain ⟨hinputs, hbindings⟩ := everywhere_instanceOf.1 ha
    exact comparable_instanceOf (fun b hb => ih b hb (hbindings b hb)) hinputs
  | exception kind node ih =>
    exact comparable_exception fun expected v hk =>
      ih expected v hk ((everywhere_exception.1 ha).2 expected v hk)

/-- Of two values each equals the other or neither does. -/
theorem same_comm (ha : a.Everywhere (Distinct layout)) (hb : b.Everywhere (Distinct layout)) :
    a.same b = b.same a :=
  Bool.eq_iff_iff.2 ⟨(comparable ha).symm b hb, (comparable hb).symm a ha⟩

/-! ## Parts of parts -/

/-- Induction in which a value has what it holds itself as hypotheses, whatever its kind is. -/
theorem induct_held {motive : Value → Prop} (step : ∀ v, (∀ u ∈ v.held, motive u) → motive v)
    (v : Value) : motive v := by
  induction v using induct with
  | list items ih | set items ih => exact step _ ih
  | map entries ih =>
    refine step _ fun u hu => ?_
    obtain ⟨e, he, hu⟩ := List.mem_flatMap.1 hu
    rcases List.mem_pair.1 hu with rfl | rfl
    · exact (ih e he).1
    · exact (ih e he).2
  | instanceOf object ih =>
    refine step _ fun u hu => ?_
    obtain ⟨b, hb, rfl⟩ := List.mem_map.1 hu
    exact ih b hb
  | exception kind node ih =>
    refine step _ fun u hu => ?_
    cases kind with
    | typeMismatch expected v =>
      obtain rfl := List.mem_singleton.1 hu
      exact ih expected u rfl
    | _ => cases hu
  | _ => exact step _ nofun

/-- What is so everywhere in a value is so everywhere in its parts. -/
theorem Everywhere.of_mem_parts {P : Value → Prop} {u v : Value} (h : v.Everywhere P)
    (hu : u ∈ v.parts) : u.Everywhere P := by
  induction v using induct_held with
  | step v ih =>
    rcases List.mem_cons.1 hu with rfl | hu
    · exact h
    · rw [inner_eq] at hu
      obtain ⟨w, hw, hu⟩ := List.mem_flatMap.1 hu
      exact ih w hw ((everywhere_iff.1 h).2 w hw) hu

/-- Neither equals the other. -/
def Differ (a b : Value) : Prop := a.same b = false ∧ b.same a = false

/-- No item of a collection is a stream, and neither of two items of a set, or keys of a map, equals
the other. -/
def WellFormed : Value → Prop
  | list items => ∀ item ∈ items, item.toStream? = none
  | set items => items.Pairwise Differ ∧ ∀ item ∈ items, item.toStream? = none
  | map entries => (entries.Pairwise fun d e => d.1.Differ e.1) ∧
      ∀ e ∈ entries, e.1.toStream? = none ∧ e.2.toStream? = none
  | _ => True

/-- The collections in a proper value are well formed, at any depth. -/
theorem Proper.wellFormed {v : Value} (h : v.Proper layout) : v.Everywhere WellFormed := by
  intro u hu
  have hproper : u.Proper layout := Everywhere.of_mem_parts h hu
  have hdistinct : ∀ {w : Value}, w.Proper layout → w.Everywhere (Distinct layout) :=
    fun hw => hw.mono fun _ h => h.1
  cases u with
  | list items => exact fun item hi => (proper_list.1 hproper item hi).noStream
  | set items =>
    obtain ⟨hdiff, hitems⟩ := proper_set.1 hproper
    refine ⟨hdiff.imp_of_mem fun {a b} ha hb hab => ⟨hab, ?_⟩,
      fun item hi => (hitems item hi).noStream⟩
    rwa [same_comm (hdistinct (hitems b hb).proper) (hdistinct (hitems a ha).proper)]
  | map entries =>
    obtain ⟨hdiff, hentries⟩ := proper_map.1 hproper
    refine ⟨hdiff.imp_of_mem fun {d e} hd he hde => ⟨hde, ?_⟩,
      fun e he => ⟨(hentries e he).1.noStream, (hentries e he).2.noStream⟩⟩
    rwa [same_comm (hdistinct (hentries e he).1.proper) (hdistinct (hentries d hd).1.proper)]
  | _ => trivial

end Value
end ReactiveLang
