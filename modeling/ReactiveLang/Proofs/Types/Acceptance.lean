import ReactiveLang.Types.Accepts

/-!
# Compatibility as an order

* `accepts_self`, `accepts_trans`: compatibility is a preorder of the types without an unknown part.
  An unknown type in the middle would relate any two types.
* `accepts_union`, `union_accepts_left`, `union_accepts_right`: a union is the least type that
  accepts what its two sides accept.
* `Rearranged`: unions with the same members in another order, grouping or number, at any depth.
  Compatibility cannot tell such types apart (`Rearranged.accepts_of`).
-/

namespace ReactiveLang.Ty

/-! ## Kinds of types -/

mutual

/-- No part of the type is unknown. -/
def isKnown : Ty → Bool
  | unknown _ => false
  | list item | set item | stream item => isKnown item
  | map a b | union a b => isKnown a && isKnown b
  | function inputs output => allKnown inputs && isKnown output
  | boolean | text | measurement _ | nothing | instanceOf _ _ | never => true

def allKnown : List Ty → Bool
  | [] => true
  | t :: rest => isKnown t && allKnown rest

end

theorem allKnown_append (before after : List Ty) :
    allKnown (before ++ after) = (allKnown before && allKnown after) := by
  induction before with
  | nil => rfl
  | cons t rest ih => simp only [List.cons_append, allKnown, ih, Bool.and_assoc]

/-- One type of its own: neither unknown nor a union, and not the empty type. -/
def isSingle : Ty → Bool
  | unknown _ | never | union _ _ => false
  | _ => true

/-- What compatibility of two single types comes to: that of their parts. -/
inductive Fits : Ty → Ty → Prop where
  | boolean : Fits boolean boolean
  | text : Fits text text
  | nothing : Fits nothing nothing
  | anyUnit (unit : Option MeasureUnit) : Fits (measurement none) (measurement unit)
  | unit (unit : MeasureUnit) : Fits (measurement (some unit)) (measurement (some unit))
  | list {a b : Ty} : a.accepts b → Fits (list a) (list b)
  | set {a b : Ty} : a.accepts b → Fits (set a) (set b)
  | stream {a b : Ty} : a.accepts b → Fits (stream a) (stream b)
  | map {k k' v v' : Ty} : k.accepts k' → v.accepts v' → Fits (map k v) (map k' v')
  | instanceOf (definition : NodeId) (name name' : String) :
      Fits (instanceOf definition name) (instanceOf definition name')
  | function {inputs inputs' : List Ty} {output output' : Ty} :
      acceptsInputs inputs inputs' → output.accepts output' →
        Fits (function inputs output) (function inputs' output')

/-! ## The rules of compatibility -/

variable {a b c t : Ty}

@[simp] theorem unknown_accepts (reason : UnknownReason) (t : Ty) :
    (unknown reason).accepts t = true := by
  simp [accepts]

@[simp] theorem accepts_unknown (t : Ty) (reason : UnknownReason) :
    t.accepts (unknown reason) = true := by
  cases t <;> simp [accepts]

@[simp] theorem accepts_never (t : Ty) : t.accepts never = true := by
  cases t <;> simp [accepts]

/-- A given union is accepted when both of its sides are. -/
@[simp] theorem accepts_union (t a b : Ty) :
    t.accepts (union a b) = (t.accepts a && t.accepts b) := by
  cases t <;> simp [accepts]

/-- A union accepts a single type when one of its sides does. -/
theorem union_accepts (h : t.isSingle = true) (a b : Ty) :
    (union a b).accepts t = (a.accepts t || b.accepts t) := by
  cases t with
  | unknown | never | union => cases h
  | _ => simp [accepts]

theorem never_accepts (h : t.isSingle = true) : never.accepts t = false := by
  cases t with
  | unknown | never | union => cases h
  | _ => simp [accepts]

theorem Fits.accepts (h : Fits a b) : a.accepts b = true := by
  cases h <;> simp_all [Ty.accepts]

/-- Two single types are compatible when they fit by their parts. -/
theorem fits_of_accepts (ha : a.isSingle = true) (hb : b.isSingle = true)
    (h : a.accepts b = true) : Fits a b := by
  unfold Ty.accepts at h
  split at h
  · cases ha
  · cases hb
  · cases hb
  · cases hb
  · cases ha
  · exact .boolean
  · exact .text
  · exact .nothing
  · exact .anyUnit _
  · obtain rfl := of_decide_eq_true h
    exact .unit _
  · exact .list h
  · exact .set h
  · exact .stream h
  · obtain ⟨hk, hv⟩ := Bool.and_eq_true_iff.1 h
    exact .map hk hv
  · obtain rfl := of_decide_eq_true h
    exact .instanceOf _ _ _
  · obtain ⟨hi, ho⟩ := Bool.and_eq_true_iff.1 h
    exact .function hi ho
  · cases h

/-! ## A union is a least upper bound -/

/-- A union accepts what one of its sides accepts. -/
theorem union_accepts_of_side (a b c : Ty) (h : a.accepts c = true ∨ b.accepts c = true) :
    (union a b).accepts c = true := by
  cases c with
  | unknown reason => exact accepts_unknown _ reason
  | never => exact accepts_never _
  | union c d =>
    simp only [accepts_union, Bool.and_eq_true] at h ⊢
    exact ⟨union_accepts_of_side a b c (h.imp And.left And.left),
      union_accepts_of_side a b d (h.imp And.right And.right)⟩
  | _ => rwa [union_accepts rfl, Bool.or_eq_true]

theorem union_accepts_left (h : a.accepts c = true) (b : Ty) : (union a b).accepts c = true :=
  union_accepts_of_side a b c (.inl h)

theorem union_accepts_right (h : b.accepts c = true) (a : Ty) : (union a b).accepts c = true :=
  union_accepts_of_side a b c (.inr h)

/-- A given union is accepted when both of its sides are. -/
theorem accepts_union_of_sides (hb : a.accepts b = true) (hc : a.accepts c = true) :
    a.accepts (union b c) = true := by
  rw [accepts_union, hb, hc, Bool.and_self]

/-! ## A preorder -/

mutual

theorem accepts_self (t : Ty) : t.accepts t = true := by
  cases t with
  | unknown reason => exact accepts_unknown _ reason
  | never => exact accepts_never _
  | union a b =>
    rw [accepts_union, Bool.and_eq_true_iff]
    exact ⟨union_accepts_left (accepts_self a) b, union_accepts_right (accepts_self b) a⟩
  | boolean => exact Fits.boolean.accepts
  | text => exact Fits.text.accepts
  | nothing => exact Fits.nothing.accepts
  | measurement unit =>
    cases unit with
    | none => exact (Fits.anyUnit none).accepts
    | some unit => exact (Fits.unit unit).accepts
  | list item => exact (Fits.list (accepts_self item)).accepts
  | set item => exact (Fits.set (accepts_self item)).accepts
  | stream item => exact (Fits.stream (accepts_self item)).accepts
  | map key value => exact (Fits.map (accepts_self key) (accepts_self value)).accepts
  | instanceOf definition name => exact (Fits.instanceOf definition name name).accepts
  | function inputs output =>
    exact (Fits.function (acceptsInputs_self inputs) (accepts_self output)).accepts

theorem acceptsInputs_self (inputs : List Ty) : acceptsInputs inputs inputs = true := by
  cases inputs with
  | nil => simp [acceptsInputs]
  | cons t rest => simp [acceptsInputs, accepts_self t, acceptsInputs_self rest]

end

/-- Types that are smaller together are compatible through the one in the middle. -/
def TransitiveBelow (size : Nat) : Prop :=
  ∀ a b c : Ty, sizeOf a + sizeOf b + sizeOf c < size → b.isKnown = true →
    a.accepts b = true → b.accepts c = true → a.accepts c = true

/-- Inputs turn around, so the type in the middle stays in the middle. -/
theorem TransitiveBelow.inputs {size : Nat} (h : TransitiveBelow size) {as bs cs : List Ty}
    (hsize : sizeOf as + sizeOf bs + sizeOf cs < size) (hb : allKnown bs = true)
    (hab : acceptsInputs as bs = true) (hbc : acceptsInputs bs cs = true) :
    acceptsInputs as cs = true := by
  induction as generalizing bs cs with
  | nil =>
    cases bs with
    | nil => exact hbc
    | cons => simp [acceptsInputs] at hab
  | cons a as ih =>
    cases bs with
    | nil => simp [acceptsInputs] at hab
    | cons b bs =>
      cases cs with
      | nil => simp [acceptsInputs] at hbc
      | cons c cs =>
        simp only [acceptsInputs, allKnown, Bool.and_eq_true, List.cons.sizeOf_spec] at *
        exact ⟨h c b a (by omega) hb.1 hbc.1 hab.1, ih (by omega) hb.2 hab.2 hbc.2⟩

/-- Types that fit the one in the middle fit each other, if smaller types are transitive. -/
theorem Fits.trans (ih : TransitiveBelow (sizeOf a + sizeOf b + sizeOf c))
    (hb : b.isKnown = true) (hab : Fits a b) (hbc : Fits b c) : Fits a c := by
  cases hab with
  | boolean | text | nothing | unit => exact hbc
  | anyUnit => cases hbc <;> exact .anyUnit _
  | list hab =>
    cases hbc with
    | list hbc =>
      rw [isKnown] at hb
      simp only [list.sizeOf_spec] at ih
      exact .list (ih _ _ _ (by omega) hb hab hbc)
  | set hab =>
    cases hbc with
    | set hbc =>
      rw [isKnown] at hb
      simp only [set.sizeOf_spec] at ih
      exact .set (ih _ _ _ (by omega) hb hab hbc)
  | stream hab =>
    cases hbc with
    | stream hbc =>
      rw [isKnown] at hb
      simp only [stream.sizeOf_spec] at ih
      exact .stream (ih _ _ _ (by omega) hb hab hbc)
  | map hk hv =>
    cases hbc with
    | map hk' hv' =>
      simp only [isKnown, Bool.and_eq_true] at hb
      simp only [map.sizeOf_spec] at ih
      exact .map (ih _ _ _ (by omega) hb.1 hk hk') (ih _ _ _ (by omega) hb.2 hv hv')
  | instanceOf =>
    cases hbc with
    | instanceOf => exact .instanceOf _ _ _
  | function hi ho =>
    cases hbc with
    | function hi' ho' =>
      simp only [isKnown, Bool.and_eq_true] at hb
      simp only [function.sizeOf_spec] at ih
      exact .function (ih.inputs (by omega) hb.1 hi hi') (ih _ _ _ (by omega) hb.2 ho ho')

section
variable (ih : TransitiveBelow (sizeOf a + sizeOf b + sizeOf c)) (hb : b.isKnown = true)
  (hab : a.accepts b = true) (hbc : b.accepts c = true)
include ih hb hab hbc

/-- Through a single type to a single type: only the expected type may be a union. -/
theorem TransitiveBelow.through_single (hsb : b.isSingle = true) (hsc : c.isSingle = true) :
    a.accepts c = true := by
  cases a with
  | unknown reason => exact unknown_accepts reason c
  | never =>
    rw [never_accepts hsb] at hab
    cases hab
  | union a a' =>
    rw [union_accepts hsb, Bool.or_eq_true] at hab
    simp only [union.sizeOf_spec] at ih
    rcases hab with hab | hab
    · exact union_accepts_left (ih _ _ _ (by omega) hb hab hbc) a'
    · exact union_accepts_right (ih _ _ _ (by omega) hb hab hbc) a
  | _ => exact ((fits_of_accepts rfl hsb hab).trans ih hb (fits_of_accepts hsb hsc hbc)).accepts

/-- To a single type: one side of a union in the middle accepts it. -/
theorem TransitiveBelow.to_single (hsc : c.isSingle = true) : a.accepts c = true := by
  cases b with
  | unknown reason => cases hb
  | never =>
    rw [never_accepts hsc] at hbc
    cases hbc
  | union b b' =>
    rw [accepts_union, Bool.and_eq_true] at hab
    rw [union_accepts hsc, Bool.or_eq_true] at hbc
    rw [isKnown, Bool.and_eq_true] at hb
    simp only [union.sizeOf_spec] at ih
    rcases hbc with hbc | hbc
    · exact ih _ _ _ (by omega) hb.1 hab.1 hbc
    · exact ih _ _ _ (by omega) hb.2 hab.2 hbc
  | _ => exact ih.through_single hb hab hbc rfl hsc

/-- To any type: both sides of a given union are accepted. -/
theorem TransitiveBelow.accepts : a.accepts c = true := by
  cases c with
  | unknown reason => exact accepts_unknown a reason
  | never => exact accepts_never a
  | union c c' =>
    rw [accepts_union, Bool.and_eq_true] at hbc ⊢
    simp only [union.sizeOf_spec] at ih
    exact ⟨ih _ _ _ (by omega) hb hab hbc.1, ih _ _ _ (by omega) hb hab hbc.2⟩
  | _ => exact ih.to_single hb hab hbc rfl

end

/-- Compatibility goes on through a type without an unknown part. -/
theorem accepts_trans (hb : b.isKnown = true) (hab : a.accepts b = true)
    (hbc : b.accepts c = true) : a.accepts c = true := by
  suffices h : ∀ size, TransitiveBelow size from h _ a b c (Nat.lt_succ_self _) hb hab hbc
  intro size
  induction size with
  | zero => exact fun _ _ _ h => absurd h (Nat.not_lt_zero _)
  | succ size ih =>
    intro a b c hsize hb hab hbc
    have ih : TransitiveBelow (sizeOf a + sizeOf b + sizeOf c) := fun x y z hxyz =>
      ih x y z (Nat.lt_of_lt_of_le hxyz (Nat.le_of_lt_succ hsize))
    exact ih.accepts hb hab hbc

/-- An unknown type in the middle would relate a text to a boolean. -/
example : text.accepts (unknown .cycle) = true ∧ (unknown .cycle).accepts boolean = true ∧
    text.accepts boolean = false := by
  simp [accepts]

/-! ## Rearranged unions -/

/-- The types differ in the order, the grouping and the number of the members of unions, at any
depth. -/
inductive Rearranged : Ty → Ty → Prop where
  | refl (t : Ty) : Rearranged t t
  | symm {a b : Ty} : Rearranged a b → Rearranged b a
  | trans {a b c : Ty} : Rearranged a b → Rearranged b c → Rearranged a c
  | swap (a b : Ty) : Rearranged (union a b) (union b a)
  | regroup (a b c : Ty) : Rearranged (union (union a b) c) (union a (union b c))
  | twice (a : Ty) : Rearranged (union a a) a
  | union {a a' b b' : Ty} : Rearranged a a' → Rearranged b b' →
      Rearranged (union a b) (union a' b')
  | list {a b : Ty} : Rearranged a b → Rearranged (list a) (list b)
  | set {a b : Ty} : Rearranged a b → Rearranged (set a) (set b)
  | stream {a b : Ty} : Rearranged a b → Rearranged (stream a) (stream b)
  | map {k k' v v' : Ty} : Rearranged k k' → Rearranged v v' → Rearranged (map k v) (map k' v')
  | output (inputs : List Ty) {a b : Ty} : Rearranged a b →
      Rearranged (function inputs a) (function inputs b)
  | input (before after : List Ty) (output : Ty) {a b : Ty} : Rearranged a b →
      Rearranged (function (before ++ a :: after) output) (function (before ++ b :: after) output)

theorem Rearranged.isKnown_eq (h : Rearranged a b) : a.isKnown = b.isKnown := by
  induction h with
  | refl => rfl
  | symm _ ih => exact ih.symm
  | trans _ _ ih ih' => exact ih.trans ih'
  | swap a b => exact Bool.and_comm _ _
  | regroup a b c => exact Bool.and_assoc _ _ _
  | twice a => exact Bool.and_self _
  | union _ _ ih ih' => simp only [isKnown, ih, ih']
  | list _ ih => exact ih
  | set _ ih => exact ih
  | stream _ ih => exact ih
  | map _ _ ih ih' => simp only [isKnown, ih, ih']
  | output inputs _ ih => simp only [isKnown, ih]
  | input before after output _ ih => simp only [isKnown, allKnown_append, allKnown, ih]

/-- Inputs that differ in one place are compatible where that one is. -/
theorem acceptsInputs_replace (before after : List Ty) (h : b.accepts a = true) :
    acceptsInputs (before ++ a :: after) (before ++ b :: after) = true := by
  induction before with
  | nil => simp [acceptsInputs, h, acceptsInputs_self]
  | cons t rest ih => simp [acceptsInputs, accepts_self, ih]

/-- Types without an unknown part accept each other when they are rearranged. -/
theorem Rearranged.accepts_both (h : Rearranged a b) (ha : a.isKnown = true) :
    a.accepts b = true ∧ b.accepts a = true := by
  induction h with
  | refl t => exact ⟨accepts_self t, accepts_self t⟩
  | symm h ih => exact (ih (h.isKnown_eq.trans ha)).symm
  | trans h h' ih ih' =>
    have hb := h.isKnown_eq.symm.trans ha
    exact ⟨accepts_trans hb (ih ha).1 (ih' hb).1, accepts_trans hb (ih' hb).2 (ih ha).2⟩
  | swap a b =>
    exact ⟨accepts_union_of_sides (union_accepts_right (accepts_self b) a)
        (union_accepts_left (accepts_self a) b),
      accepts_union_of_sides (union_accepts_right (accepts_self a) b)
        (union_accepts_left (accepts_self b) a)⟩
  | regroup a b c =>
    have hl := accepts_self a
    have hm := accepts_self b
    have hr := accepts_self c
    constructor
    · exact accepts_union_of_sides (union_accepts_left (union_accepts_left hl b) c)
        (accepts_union_of_sides (union_accepts_left (union_accepts_right hm a) c)
          (union_accepts_right hr _))
    · exact accepts_union_of_sides (accepts_union_of_sides (union_accepts_left hl _)
        (union_accepts_right (union_accepts_left hm c) a))
          (union_accepts_right (union_accepts_right hr b) a)
  | twice a =>
    exact ⟨union_accepts_left (accepts_self a) a,
      accepts_union_of_sides (accepts_self a) (accepts_self a)⟩
  | union _ _ ih ih' =>
    rw [isKnown, Bool.and_eq_true] at ha
    have hl := ih ha.1
    have hr := ih' ha.2
    exact ⟨accepts_union_of_sides (union_accepts_left hl.1 _) (union_accepts_right hr.1 _),
      accepts_union_of_sides (union_accepts_left hl.2 _) (union_accepts_right hr.2 _)⟩
  | list _ ih => exact (ih ha).imp (fun h => (Fits.list h).accepts) fun h => (Fits.list h).accepts
  | set _ ih => exact (ih ha).imp (fun h => (Fits.set h).accepts) fun h => (Fits.set h).accepts
  | stream _ ih =>
    exact (ih ha).imp (fun h => (Fits.stream h).accepts) fun h => (Fits.stream h).accepts
  | map _ _ ih ih' =>
    rw [isKnown, Bool.and_eq_true] at ha
    have hk := ih ha.1
    have hv := ih' ha.2
    exact ⟨(Fits.map hk.1 hv.1).accepts, (Fits.map hk.2 hv.2).accepts⟩
  | output inputs _ ih =>
    rw [isKnown, Bool.and_eq_true] at ha
    have hi := acceptsInputs_self inputs
    exact (ih ha.2).imp (fun h => (Fits.function hi h).accepts) fun h =>
      (Fits.function hi h).accepts
  | input before after output _ ih =>
    simp only [isKnown, allKnown_append, allKnown, Bool.and_eq_true] at ha
    have ho := accepts_self output
    have hi := ih ha.1.2.1
    exact ⟨(Fits.function (acceptsInputs_replace before after hi.2) ho).accepts,
      (Fits.function (acceptsInputs_replace before after hi.1) ho).accepts⟩

/-- A rearranged type accepts what the type accepts, and is accepted where the type is. -/
theorem Rearranged.accepts_of {a' b' : Ty} (ha : Rearranged a a') (hb : Rearranged b b')
    (hka : a.isKnown = true) (hkb : b.isKnown = true) (h : a.accepts b = true) :
    a'.accepts b' = true :=
  have hab : a'.accepts b = true := accepts_trans hka (ha.accepts_both hka).2 h
  accepts_trans hkb hab (hb.accepts_both hkb).1

/-! ## Compatibility as a whole -/

/-- Compatibility is a preorder of the types without an unknown part, a union is the join of its
two sides, and rearranging unions on either side changes no answer. -/
theorem accepts_preorder :
    (∀ a : Ty, a.accepts a = true) ∧
      (∀ a b c : Ty, b.isKnown = true → a.accepts b = true → b.accepts c = true →
        a.accepts c = true) ∧
      (∀ a b c : Ty, a.accepts (union b c) = true ↔ a.accepts b = true ∧ a.accepts c = true) ∧
      (∀ a b c : Ty, a.accepts c = true →
        (union a b).accepts c = true ∧ (union b a).accepts c = true) ∧
      ∀ a a' b b' : Ty, a.isKnown = true → b.isKnown = true → Rearranged a a' → Rearranged b b' →
        a'.accepts b' = a.accepts b := by
  refine ⟨accepts_self, fun _ _ _ => accepts_trans, fun a b c => ?_,
    fun a b c h => ⟨union_accepts_left h b, union_accepts_right h b⟩,
    fun a a' b b' hka hkb ha hb => ?_⟩
  · rw [accepts_union, Bool.and_eq_true]
  · rw [Bool.eq_iff_iff]
    exact ⟨ha.symm.accepts_of hb.symm (ha.isKnown_eq ▸ hka) (hb.isKnown_eq ▸ hkb),
      ha.accepts_of hb hka hkb⟩

/-- A list of texts and nothing is one of nothing and texts, and accepts a list of nothing. -/
theorem accepts_preorder_list :
    let mixed := list (union text nothing)
    let swapped := list (union nothing text)
    swapped.isKnown = true ∧ mixed.isKnown = true ∧ Rearranged mixed swapped ∧
      mixed.accepts swapped = true ∧ swapped.accepts (list nothing) = true ∧
        mixed.accepts (list nothing) = true ∧ swapped.accepts mixed = mixed.accepts mixed := by
  obtain ⟨-, htrans, -, -, hrearranged⟩ := accepts_preorder
  have hswap : Rearranged (list (union text nothing)) (list (union nothing text)) :=
    .list (.swap text nothing)
  have hmixed : (list (union text nothing)).accepts (list (union nothing text)) = true := by
    simp [accepts]
  have hnothing : (list (union nothing text)).accepts (list nothing) = true := by simp [accepts]
  exact ⟨rfl, rfl, hswap, hmixed, hnothing, htrans _ _ _ rfl hmixed hnothing,
    hrearranged _ _ _ _ rfl rfl hswap (.refl _)⟩

end ReactiveLang.Ty
