import Mathlib.Data.Rat.Floor
import Mathlib.Data.String.Basic
import ReactiveLang.Proofs.Value.Proper

/-!
# The limit of texts

A text that a method makes has at most `TextMethod.byteLimit` bytes. The length of a repeated text is
told before it is made, in words of 64 bits: the count is cut down to a word, and a product that
overflows is too long. Two texts are joined without a look at their lengths, so `combine` alone makes
longer texts, of up to twice the limit.

* `isTooLong_times`: no count is so large that the product of words tells a wrong length.
* `size_of_mem_segments`: the parts of a text are no longer than the text.
* `texts_limited`: just when a method keeps the limit.
-/

namespace ReactiveLang

/-! ## Whole parts -/

namespace Number

/-- The whole part of a positive finite number; zero for all others. -/
def wholePart (x : Float) : Nat :=
  match Binary64.ofFloat x with
  | .finite false m e => ⌊(m : ℚ) * 2 ^ e⌋₊
  | _ => 0

theorem floor_scaled (m : Nat) (e : Int) : ⌊(m : ℚ) * 2 ^ e⌋₊ =
    if 0 ≤ e then m * Nat.pow 2 e.toNat else m / Nat.pow 2 (-e).toNat := by
  split
  · rename_i he
    obtain ⟨k, rfl⟩ := Int.eq_ofNat_of_zero_le he
    have hwhole : (m : ℚ) * 2 ^ (k : ℤ) = ((m * 2 ^ k : ℕ) : ℚ) := by push_cast; rfl
    rw [hwhole, Nat.floor_natCast]
    rfl
  · obtain ⟨k, hk⟩ := Int.eq_ofNat_of_zero_le (show 0 ≤ -e by omega)
    obtain rfl : e = -(k : ℤ) := by omega
    have hpart : (m : ℚ) * 2 ^ (-(k : ℤ)) = (m : ℚ) / ((2 ^ k : ℕ) : ℚ) := by
      rw [zpow_neg, zpow_natCast, ← div_eq_mul_inv]
      push_cast
      rfl
    rw [hpart, Rat.natFloor_natCast_div_natCast, neg_neg]
    rfl

theorem floorNat?_getD (x : Float) : (floorNat? x).getD 0 = wholePart x := by
  unfold floorNat? wholePart
  cases Binary64.ofFloat x with
  | notANumber => rfl
  | infinite negative => cases negative <;> rfl
  | finite negative m e =>
    cases negative with
    | true => rfl
    | false => exact (floor_scaled m e).symm

end Number

/-! ## Lengths -/

namespace Text

theorem utf8Len_of_mem_cutFrom {delimiter : List Char} {skip : Nat} {part text p : List Char}
    (h : p ∈ cutFrom delimiter skip part text) :
    String.utf8Len p ≤ String.utf8Len part + String.utf8Len text := by
  fun_induction cutFrom delimiter skip part text with
  | case1 skip part =>
    rw [List.mem_singleton.1 h, String.utf8Len_reverse]
    exact Nat.le_add_right _ _
  | case2 part c text skip ih =>
    have hrest := ih h
    rw [String.utf8Len_cons]
    omega
  | case3 part c text _ _ ih =>
    rw [String.utf8Len_cons]
    rcases List.mem_cons.1 h with rfl | h
    · rw [String.utf8Len_reverse]
      omega
    · have hrest := ih h
      rw [String.utf8Len_nil] at hrest
      omega
  | case4 part c text _ ih =>
    have hrest := ih h
    rw [String.utf8Len_cons] at hrest ⊢
    omega

theorem utf8ByteSize_eq (s : String) : s.utf8ByteSize = String.utf8Len s.toList := by
  rw [← String.utf8ByteSize_ofList, String.ofList_toList]

/-- The parts of a text are no longer than the text. -/
theorem size_of_mem_segments {delimiter text part : String} (h : part ∈ segments delimiter text) :
    part.utf8ByteSize ≤ text.utf8ByteSize := by
  rw [utf8ByteSize_eq text]
  unfold segments at h
  split at h
  · obtain ⟨c, hc, rfl⟩ := List.mem_map.1 h
    have hone := String.utf8Len_le_of_sublist (List.singleton_sublist.2 hc)
    rwa [← String.utf8ByteSize_ofList, ← String.singleton_eq_ofList] at hone
  · obtain ⟨p, hp, rfl⟩ := List.mem_map.1 h
    rw [String.utf8ByteSize_ofList]
    have hpart := utf8Len_of_mem_cutFrom hp
    rwa [String.utf8Len_nil, Nat.zero_add] at hpart

theorem size_join_replicate (s : String) (n : Nat) :
    (String.join (List.replicate n s)).utf8ByteSize = s.utf8ByteSize * n := by
  rw [utf8ByteSize_eq, String.toList_join, utf8ByteSize_eq s]
  induction n with
  | zero => rfl
  | succ n ih => rw [List.replicate_succ, List.flatMap_cons, String.utf8Len_append, ih]; ring

end Text

namespace Value

/-- The texts that the value is or holds, at any depth. -/
def texts (v : Value) : List String := v.parts.filterMap toText?

/-- No text that the value is or holds is longer than the texts that methods may make. -/
def WithinLimit (v : Value) : Prop := ∀ s ∈ v.texts, s.utf8ByteSize ≤ TextMethod.byteLimit

theorem texts_list (texts : List String) : (list (texts.map text)).texts = texts := by
  change (itemParts (texts.map text)).filterMap toText? = texts
  induction texts with
  | nil => rfl
  | cons s rest ih =>
    rw [List.map_cons, itemParts, inner, List.cons_append, List.nil_append,
      List.filterMap_cons_some (rfl : toText? (text s) = some s), ih]

end Value

namespace TextMethod

variable {receiver : String} {arguments : List Value}

/-! ## Repeated texts -/

theorem byteLimit_lt_largestWord : byteLimit < largestWord := by decide

/-- A product that overflows a word is above the limit. -/
theorem isTooLong_iff (n : Nat) :
    isTooLong receiver n = true ↔ byteLimit < receiver.utf8ByteSize * n := by
  have hword := byteLimit_lt_largestWord
  unfold isTooLong wordProduct?
  by_cases hfits : receiver.utf8ByteSize * n ≤ largestWord
  · rw [if_pos hfits]
    exact decide_eq_true_iff
  · rw [if_neg hfits]
    exact iff_of_true rfl (by omega)

/-- A count that does not fit a word makes any text too long, but the empty one. -/
theorem whole_le_largestWord {count : Float} (hne : receiver.isEmpty = false)
    (hfits : receiver.utf8ByteSize * Number.wholePart count ≤ byteLimit) :
    Number.wholePart count ≤ largestWord := by
  have hpos : 0 < receiver.utf8ByteSize := Nat.pos_of_ne_zero fun hzero => by
    rw [String.utf8ByteSize_eq_zero_iff] at hzero
    simp [hzero] at hne
  have hmul := Nat.le_mul_of_pos_left (Number.wholePart count) hpos
  have hword := byteLimit_lt_largestWord
  omega

theorem times_eq (count : Float) : times count = min (Number.wholePart count) largestWord := by
  rw [times, Number.floorNat?_getD]

/-- No count is so large that the words tell a wrong length. -/
theorem isTooLong_times (count : Float) : isTooLong receiver (times count) = true ↔
    byteLimit < receiver.utf8ByteSize * Number.wholePart count := by
  rw [isTooLong_iff, times_eq]
  by_cases hfits : Number.wholePart count ≤ largestWord
  · rw [Nat.min_eq_left hfits]
  · rw [Nat.min_eq_right (by omega)]
    have hword := byteLimit_lt_largestWord
    rcases Nat.eq_zero_or_pos receiver.utf8ByteSize with hzero | hpos
    · rw [hzero, Nat.zero_mul, Nat.zero_mul]
    · have hcut := Nat.le_mul_of_pos_left largestWord hpos
      have hwhole := Nat.le_mul_of_pos_left (Number.wholePart count) hpos
      exact iff_of_true (by omega) (by omega)

/-- Whole parts, as far as a word goes; and nothing for what is negative or no finite number. -/
example : times 2.7 = 2 ∧ times 1e20 = largestWord ∧ times (-3) = 0 ∧ times (1 / 0) = 0 ∧
    times (0 / 0) = 0 := by decide +kernel

/-- A text that is not too long is repeated as often as the count tells. -/
theorem repeatText_times (count : Float) : repeatText receiver (times count) =
    if byteLimit < receiver.utf8ByteSize * Number.wholePart count then
      .error (.textTooLong byteLimit)
    else .ok (.text (String.join (List.replicate (Number.wholePart count) receiver))) := by
  unfold repeatText
  by_cases hlong : byteLimit < receiver.utf8ByteSize * Number.wholePart count
  · rw [if_pos ((isTooLong_times count).2 hlong), if_pos hlong]
  · rw [if_neg (mt (isTooLong_times count).1 hlong), if_neg hlong]
    cases hempty : receiver.isEmpty with
    | true =>
      obtain rfl : receiver = "" := String.isEmpty_iff.1 hempty
      have hsize := Text.size_join_replicate "" (Number.wholePart count)
      rw [String.utf8ByteSize_empty, Nat.zero_mul, String.utf8ByteSize_eq_zero_iff] at hsize
      rw [hsize]
      rfl
    | false =>
      rw [times_eq, Nat.min_eq_left (whole_le_largestWord hempty (Nat.le_of_not_lt hlong))]
      rfl

/-! ## All methods -/

/-- The texts that a method describes: a repeated text, two that are joined, or the parts of one. -/
def described (m : TextMethod) (receiver : String) (arguments : List Value) : List String :=
  match m, arguments with
  | repeated, .measurement count _ :: _ =>
    [String.join (List.replicate (Number.wholePart count) receiver)]
  | combine, .text other :: _ => [receiver ++ other]
  | segment, .text delimiter :: _ => Text.segments delimiter receiver
  | _, _ => []

/-- A method makes the texts that it describes; or a repeated text would be too long; or the argument
is missing or of another type, so that no text is described. -/
theorem apply_cases (m : TextMethod) (receiver : String) (arguments : List Value) :
    (∃ v, m.apply receiver arguments = .ok v ∧ v.texts = m.described receiver arguments ∧
      (m = repeated → ∀ s ∈ m.described receiver arguments, s.utf8ByteSize ≤ byteLimit)) ∨
    (m = repeated ∧ m.apply receiver arguments = .error (.textTooLong byteLimit) ∧
      ∃ s ∈ m.described receiver arguments, byteLimit < s.utf8ByteSize) ∨
    m.described receiver arguments = [] ∧ ∃ kind, m.apply receiver arguments = .error kind ∧
      ∀ limit, kind ≠ .textTooLong limit := by
  cases m with
  | length => exact .inl ⟨_, rfl, rfl, nofun⟩
  | repeated =>
    cases arguments with
    | nil => exact .inr (.inr ⟨rfl, _, rfl, nofun⟩)
    | cons argument rest =>
      cases argument with
      | measurement count unit =>
        have hsize := Text.size_join_replicate receiver (Number.wholePart count)
        have happly : repeated.apply receiver (.measurement count unit :: rest) =
          repeatText receiver (times count) := rfl
        rw [happly, repeatText_times]
        split
        · rename_i hlong
          exact .inr (.inl ⟨rfl, rfl, _, List.mem_singleton_self _, hsize.symm ▸ hlong⟩)
        · rename_i hshort
          refine .inl ⟨_, rfl, rfl, fun _ s hs => ?_⟩
          rw [List.mem_singleton.1 hs, hsize]
          omega
      | _ => exact .inr (.inr ⟨rfl, _, rfl, nofun⟩)
  | segment =>
    cases arguments with
    | nil => exact .inr (.inr ⟨rfl, _, rfl, nofun⟩)
    | cons argument rest =>
      cases argument with
      | text delimiter => exact .inl ⟨_, rfl, Value.texts_list _, nofun⟩
      | _ => exact .inr (.inr ⟨rfl, _, rfl, nofun⟩)
  | _ =>
    cases arguments with
    | nil => exact .inr (.inr ⟨rfl, _, rfl, nofun⟩)
    | cons argument rest =>
      cases argument with
      | text other => exact .inl ⟨_, rfl, rfl, nofun⟩
      | _ => exact .inr (.inr ⟨rfl, _, rfl, nofun⟩)

/-- Of the methods that do not repeat, only the one that joins two texts describes one that is longer
than they are. -/
theorem size_of_mem_described {m : TextMethod} {receiver s : String} {arguments : List Value}
    (hreceiver : receiver.utf8ByteSize ≤ byteLimit) (hrepeat : m ≠ repeated) (hcombine : m ≠ combine)
    (h : s ∈ m.described receiver arguments) : s.utf8ByteSize ≤ byteLimit := by
  unfold described at h
  split at h
  · exact absurd rfl hrepeat
  · exact absurd rfl hcombine
  · exact (Text.size_of_mem_segments h).trans hreceiver
  · cases h

/-- Two texts are joined whatever their lengths are. -/
theorem apply_of_mem_described {receiver s : String} {arguments : List Value}
    (h : s ∈ combine.described receiver arguments) :
    combine.apply receiver arguments = .ok (.text s) ∧
      ∃ other, .text other ∈ arguments ∧ s = receiver ++ other := by
  unfold described at h
  split at h
  · contradiction
  · rename_i other rest _
    obtain rfl := List.mem_singleton.1 h
    exact ⟨rfl, other, List.mem_cons_self, rfl⟩
  · contradiction
  · cases h

/-- What a call of the method makes is within the limit, and the call fails for a length just when the
method describes a text that is longer. -/
def KeepsLimit (m : TextMethod) (receiver : String) (arguments : List Value) : Prop :=
  (∀ v, m.apply receiver arguments = .ok v → v.WithinLimit) ∧
    ∀ limit, m.apply receiver arguments = .error (.textTooLong limit) ↔
      limit = byteLimit ∧ ∃ s ∈ m.described receiver arguments, byteLimit < s.utf8ByteSize

/-- A call keeps the limit unless it makes a longer text. -/
theorem keepsLimit_iff {m : TextMethod} {receiver : String} {arguments : List Value} :
    m.KeepsLimit receiver arguments ↔
      ∀ v, m.apply receiver arguments = .ok v → v.WithinLimit := by
  refine ⟨And.left, fun h => ⟨h, fun limit => ?_⟩⟩
  rcases apply_cases m receiver arguments with
    ⟨v, happly, htexts, -⟩ | ⟨-, happly, hlong⟩ | ⟨hnone, kind, happly, hkind⟩
  · have hshort := h v happly
    rw [Value.WithinLimit, htexts] at hshort
    rw [happly]
    refine iff_of_false nofun ?_
    rintro ⟨-, s, hs, hlong⟩
    exact absurd (hshort s hs) (Nat.not_le_of_lt hlong)
  · rw [happly, Except.error.injEq, ExceptionKind.textTooLong.injEq, and_iff_left hlong, eq_comm]
  · rw [happly, Except.error.injEq, hnone]
    exact iff_of_false (hkind limit) (by simp)

/-- Called with texts within the limit, every method of texts makes texts within the limit, and refuses
to make one just when it would be longer, whatever the count is and however often it would be repeated;
but `combine` refuses none. It keeps the limit just when the two texts that it joins are short enough,
and else makes one of up to twice the limit. -/
theorem texts_limited (m : TextMethod) {receiver : String} {arguments : List Value}
    (hreceiver : receiver.utf8ByteSize ≤ byteLimit) (harguments : ∀ v ∈ arguments, v.WithinLimit) :
    (m.KeepsLimit receiver arguments ↔
      (m = combine → ∀ s ∈ m.described receiver arguments, s.utf8ByteSize ≤ byteLimit)) ∧
    (∀ v, m.apply receiver arguments = .ok v → v.texts = m.described receiver arguments) ∧
    ∀ s ∈ combine.described receiver arguments,
      combine.apply receiver arguments = .ok (.text s) ∧ s.utf8ByteSize ≤ 2 * byteLimit := by
  have hdescribed : ∀ v, m.apply receiver arguments = .ok v →
      v.texts = m.described receiver arguments ∧
        (m = repeated → ∀ s ∈ m.described receiver arguments, s.utf8ByteSize ≤ byteLimit) := by
    intro v hv
    rcases apply_cases m receiver arguments with
      ⟨u, happly, htexts⟩ | ⟨-, happly, -⟩ | ⟨-, kind, happly, -⟩ <;> cases hv.symm.trans happly
    exact htexts
  refine ⟨keepsLimit_iff.trans ⟨?_, ?_⟩, fun v hv => (hdescribed v hv).1, fun s hs => ?_⟩
  · rintro h rfl s hs
    exact h _ (apply_of_mem_described hs).1 s (List.mem_singleton_self s)
  · intro hcombine v hv
    obtain ⟨htexts, hrepeated⟩ := hdescribed v hv
    rw [Value.WithinLimit, htexts]
    intro s hs
    by_cases hjoin : m = combine
    · exact hcombine hjoin s hs
    · by_cases hrepeat : m = repeated
      · exact hrepeated hrepeat s hs
      · exact size_of_mem_described hreceiver hrepeat hjoin hs
  · obtain ⟨happly, other, hother, rfl⟩ := apply_of_mem_described hs
    have hshort : other.utf8ByteSize ≤ byteLimit :=
      harguments _ hother other (List.mem_singleton_self other)
    refine ⟨happly, ?_⟩
    rw [String.utf8ByteSize_append]
    omega

/-- A text as long as the limit allows. -/
def longestText : String := String.join (List.replicate byteLimit "a")

theorem size_longestText : longestText.utf8ByteSize = byteLimit :=
  (Text.size_join_replicate "a" byteLimit).trans (Nat.one_mul _)

/-- The longest text is not repeated twice, and stands for itself if it is repeated once and a half.
With nothing joined to it, it stays within the limit. -/
theorem texts_limited_longest :
    let once := [Value.number 1.5]
    let twice := [Value.number 2]
    (longestText.utf8ByteSize ≤ byteLimit ∧ ∀ v ∈ once ++ twice, v.WithinLimit) ∧
      repeated.KeepsLimit longestText once ∧
      repeated.apply longestText twice = .error (.textTooLong byteLimit) ∧
      combine.KeepsLimit longestText [.text ""] := by
  intro once twice
  have hsize : longestText.utf8ByteSize ≤ byteLimit := size_longestText.le
  have hnumbers : ∀ v ∈ once ++ twice, v.WithinLimit := by
    simp [once, twice, Value.WithinLimit, Value.texts, Value.parts, Value.number, Value.inner,
      Value.toText?]
  have honce := texts_limited repeated hsize fun v hv => hnumbers v (List.mem_append_left _ hv)
  have htwice := texts_limited repeated hsize fun v hv => hnumbers v (List.mem_append_right _ hv)
  have hempty : ∀ v ∈ [Value.text ""], v.WithinLimit := by
    simp [Value.WithinLimit, Value.texts, Value.parts, Value.inner, Value.toText?]
  have hjoin := texts_limited combine hsize hempty
  have hother : repeated ≠ combine := TextMethod.noConfusion
  refine ⟨⟨hsize, hnumbers⟩, honce.1.2 (absurd · hother), ?_, hjoin.1.2 fun _ s hs => ?_⟩
  · have hrefuses := (htwice.1.2 (absurd · hother)).2 byteLimit
    refine hrefuses.2 ⟨rfl, _, List.mem_singleton_self _, ?_⟩
    have hwhole : Number.wholePart 2 = 2 := by
      rw [← Number.floorNat?_getD]
      decide +kernel
    rw [Text.size_join_replicate, hwhole, size_longestText]
    decide
  · rw [List.mem_singleton.1 hs, String.append_empty]
    exact hsize

/-- Joined to another text, the longest text makes one that is longer than the limit. -/
theorem joined_beyond_limit :
    longestText.utf8ByteSize ≤ byteLimit ∧ (Value.text "b").WithinLimit ∧
      ¬ combine.KeepsLimit longestText [.text "b"] ∧
      combine.apply longestText [.text "b"] = .ok (.text (longestText ++ "b")) ∧
      byteLimit < (longestText ++ "b").utf8ByteSize := by
  have hsize : (longestText ++ "b").utf8ByteSize = byteLimit + 1 := by
    rw [String.utf8ByteSize_append, size_longestText]
    rfl
  refine ⟨size_longestText.le, fun s hs => ?_, fun h => ?_, rfl, by omega⟩
  · rw [List.mem_singleton.1 hs]
    decide
  · have hshort := h.1 _ rfl (longestText ++ "b") (List.mem_singleton_self _)
    omega

end TextMethod
end ReactiveLang
