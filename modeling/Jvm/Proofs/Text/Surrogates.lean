import Jvm.Proofs.Text.ModifiedUtf8

/-!
# Surrogates that pair

UTF-16 is read just if no surrogate in it is unpaired, and what is read is the text that has these
units (`Utf16.decode_eq_some_iff`, `Utf16.decode_eq_none_iff`). A high surrogate may end one group of
modified UTF-8 and its low one open the next, so this is a matter of all units together.

Main theorem `decode_modifiedUtf8`: which byte strings are text, and of which text.
-/

namespace Jvm.Text

namespace Utf16

/-- The unit at position `i` is a high surrogate with no low one after it, or a low one with no high
one before it. -/
def UnpairedAt (us : List UInt16) (i : Nat) : Prop :=
  ∃ u, us[i]? = some u ∧
    (isHighSurrogate u = true ∧ (∀ v, us[i + 1]? = some v → isLowSurrogate v = false) ∨
      isLowSurrogate u = true ∧ ∀ j v, j + 1 = i → us[j]? = some v → isHighSurrogate v = false)

/-- Some surrogate is unpaired. -/
def Unpaired (us : List UInt16) : Prop := ∃ i, UnpairedAt us i

theorem not_low_of_high {u : UInt16} (h : isHighSurrogate u = true) : isLowSurrogate u = false := by
  simp only [isHighSurrogate, isLowSurrogate, Bool.and_eq_true, decide_eq_true_eq,
    Bool.and_eq_false_imp, decide_eq_false_iff_not] at *
  omega

theorem not_high_of_low {u : UInt16} (h : isLowSurrogate u = true) : isHighSurrogate u = false := by
  cases hhigh : isHighSurrogate u with
  | false => rfl
  | true => simp [not_low_of_high hhigh] at h

/-! ## Unpaired surrogates behind a character -/

section
variable {u v : UInt16} {rest : List UInt16}

/-- A unit in front pairs with the first one at most, and only a high surrogate does. -/
theorem unpairedAt_succ {i : Nat} (h : i = 0 → isHighSurrogate u = false) :
    UnpairedAt (u :: rest) (i + 1) ↔ UnpairedAt rest i := by
  unfold UnpairedAt
  simp only [List.getElem?_cons_succ]
  constructor
  · rintro ⟨w, hw, ⟨hhigh, hafter⟩ | ⟨hlow, hbefore⟩⟩
    · exact ⟨w, hw, .inl ⟨hhigh, hafter⟩⟩
    · exact ⟨w, hw, .inr ⟨hlow, fun j x hj hx => hbefore (j + 1) x (by omega) (by simpa using hx)⟩⟩
  · rintro ⟨w, hw, ⟨hhigh, hafter⟩ | ⟨hlow, hbefore⟩⟩
    · exact ⟨w, hw, .inl ⟨hhigh, hafter⟩⟩
    · refine ⟨w, hw, .inr ⟨hlow, fun j x hj hx => ?_⟩⟩
      cases j with
      | zero =>
        obtain rfl : u = x := by simpa using hx
        exact h (by omega)
      | succ j => exact hbefore j x (by omega) (by simpa using hx)

theorem not_unpaired_nil : ¬Unpaired [] := by
  simp [Unpaired, UnpairedAt]

theorem unpaired_single (hhigh : isHighSurrogate u = false) (hlow : isLowSurrogate u = false) :
    Unpaired (u :: rest) ↔ Unpaired rest := by
  constructor
  · rintro ⟨i, h⟩
    cases i with
    | zero => simp [UnpairedAt, hhigh, hlow] at h
    | succ i => exact ⟨i, (unpairedAt_succ fun _ => hhigh).1 h⟩
  · rintro ⟨i, h⟩
    exact ⟨i + 1, (unpairedAt_succ fun _ => hhigh).2 h⟩

theorem unpaired_pair (hhigh : isHighSurrogate u = true) (hlow : isLowSurrogate v = true) :
    Unpaired (u :: v :: rest) ↔ Unpaired rest := by
  have hv := not_high_of_low hlow
  constructor
  · rintro ⟨i, h⟩
    match i with
    | 0 => simp [UnpairedAt, not_low_of_high hhigh, hlow] at h
    | 1 =>
      obtain ⟨w, hw, ⟨hwhigh, -⟩ | ⟨-, hbefore⟩⟩ := h
      · obtain rfl : v = w := by simpa using hw
        simp [hv] at hwhigh
      · have hu := hbefore 0 u rfl rfl
        simp [hhigh] at hu
    | i + 2 =>
      have hnext : UnpairedAt (v :: rest) (i + 1) := (unpairedAt_succ (by simp)).1 h
      exact ⟨i, (unpairedAt_succ fun _ => hv).1 hnext⟩
  · rintro ⟨i, h⟩
    have hnext : UnpairedAt (v :: rest) (i + 1) := (unpairedAt_succ fun _ => hv).2 h
    exact ⟨i + 2, (unpairedAt_succ (by simp)).2 hnext⟩

theorem unpaired_high (hhigh : isHighSurrogate u = true)
    (h : ∀ v, rest[0]? = some v → isLowSurrogate v = false) : Unpaired (u :: rest) := by
  refine ⟨0, u, rfl, .inl ⟨hhigh, fun v hv => h v (by simpa using hv)⟩⟩

theorem unpaired_low (hlow : isLowSurrogate u = true) : Unpaired (u :: rest) := by
  refine ⟨0, u, rfl, .inr ⟨hlow, fun j v hj => ?_⟩⟩
  omega

end

/-- **UTF-16 is read** unless a surrogate is unpaired. -/
theorem decode_eq_none_iff (us : List UInt16) : decode us = none ↔ Unpaired us := by
  fun_induction decode us with
  | case1 => simp [not_unpaired_nil]
  | case2 u h =>
    simp only [Bool.or_eq_true] at h
    simp only [true_iff]
    rcases h with hhigh | hlow
    · exact unpaired_high hhigh (by simp)
    · exact unpaired_low hlow
  | case3 u h =>
    simp only [Bool.or_eq_true, not_or, Bool.not_eq_true] at h
    simp [unpaired_single h.1 h.2, not_unpaired_nil]
  | case4 u v rest hhigh hlow ih => simp [unpaired_pair hhigh hlow, ih]
  | case5 u v rest hhigh hlow =>
    simp only [true_iff]
    exact unpaired_high hhigh (by simpa using hlow)
  | case6 u v rest hhigh hlow =>
    simp only [true_iff]
    exact unpaired_low hlow
  | case7 u v rest hhigh hlow ih =>
    simp only [Bool.not_eq_true] at hhigh hlow
    simp [unpaired_single hhigh hlow, ih]

/-! ## What is read -/

theorem unitsOf_ofNat {u : UInt16} (hhigh : isHighSurrogate u = false) (hlow : isLowSurrogate u = false) :
    unitsOf (Char.ofNat u.toNat) = [u] := by
  have hlt := u.toNat_lt
  simp only [isHighSurrogate, isLowSurrogate, Bool.and_eq_false_imp, decide_eq_true_eq,
    decide_eq_false_iff_not] at hhigh hlow
  have hchar : (Char.ofNat u.toNat).toNat = u.toNat := by
    rw [Char.toNat_ofNat, if_pos]
    simp only [Nat.isValidChar]
    omega
  rw [unitsOf, hchar, if_pos hlt, UInt16.ofNat_toNat]

theorem unitsOf_pairedChar {u v : UInt16} (hhigh : isHighSurrogate u = true) (hlow : isLowSurrogate v = true) :
    unitsOf (pairedChar u v) = [u, v] := by
  simp only [isHighSurrogate, isLowSurrogate, Bool.and_eq_true, decide_eq_true_eq] at hhigh hlow
  have hchar : (pairedChar u v).toNat = 0x10000 + (u.toNat - 0xd800) * 0x400 + (v.toNat - 0xdc00) := by
    rw [pairedChar, Char.toNat_ofNat, if_pos]
    simp only [Nat.isValidChar]
    omega
  have hu : 0xd800 + ((pairedChar u v).toNat - 0x10000) / 0x400 = u.toNat := by omega
  have hv : 0xdc00 + ((pairedChar u v).toNat - 0x10000) % 0x400 = v.toNat := by omega
  rw [unitsOf, if_neg (by omega), hu, hv, UInt16.ofNat_toNat, UInt16.ofNat_toNat]

theorem eq_flatMap_of_decode {us : List UInt16} {chars : List Char} (h : decode us = some chars) :
    us = chars.flatMap unitsOf := by
  fun_induction decode us generalizing chars with
  | case1 =>
    cases h
    rfl
  | case3 u hu =>
    simp only [Bool.or_eq_true, not_or, Bool.not_eq_true] at hu
    cases h
    simp [unitsOf_ofNat hu.1 hu.2]
  | case4 u v rest hhigh hlow ih =>
    obtain ⟨later, hrest, rfl⟩ := Option.map_eq_some_iff.1 h
    rw [List.flatMap_cons, unitsOf_pairedChar hhigh hlow, ← ih hrest]
    rfl
  | case7 u v rest hhigh hlow ih =>
    simp only [Bool.not_eq_true] at hhigh hlow
    obtain ⟨later, hrest, rfl⟩ := Option.map_eq_some_iff.1 h
    rw [List.flatMap_cons, unitsOf_ofNat hhigh hlow, ← ih hrest]
    rfl
  | _ => cases h

theorem decode_eq_some_iff {us : List UInt16} {chars : List Char} :
    decode us = some chars ↔ us = chars.flatMap unitsOf := by
  constructor
  · exact eq_flatMap_of_decode
  · rintro rfl
    exact decode_flatMap_unitsOf chars

end Utf16

namespace ModifiedUtf8

theorem decode_eq_some_iff {bytes : Bytes} {text : String} :
    decode bytes = some text ↔ Groups bytes (text.toList.flatMap Utf16.unitsOf) := by
  rw [← units_eq_some_iff, decode, Option.map_eq_some_iff]
  constructor
  · rintro ⟨chars, hchars, rfl⟩
    obtain ⟨us, hus, hdecode⟩ := Option.bind_eq_some_iff.1 hchars
    rw [String.toList_ofList, ← Utf16.decode_eq_some_iff.1 hdecode, hus]
  · intro h
    refine ⟨text.toList, ?_, String.ofList_toList⟩
    rw [h]
    exact Utf16.decode_flatMap_unitsOf text.toList

theorem decode_eq_none_iff {bytes : Bytes} :
    decode bytes = none ↔ (∀ us, ¬Groups bytes us) ∨ ∃ us, Groups bytes us ∧ Utf16.Unpaired us := by
  simp only [← units_eq_some_iff, ← Utf16.decode_eq_none_iff, decode, Option.map_eq_none_iff]
  cases units bytes <;> simp

/-- **Modified UTF-8.** What was written is read again. Bytes are no text just if they do not split into groups
or a surrogate is unpaired in the units of the groups; otherwise they are the text that has these
units. The bytes are read in order, and none behind them. -/
theorem decode_modifiedUtf8 (bytes : Bytes) :
    (∀ text, decode (encode text) = some text) ∧
      (decode bytes = none ↔ (∀ us, ¬Groups bytes us) ∨ ∃ us, Groups bytes us ∧ Utf16.Unpaired us) ∧
      (∀ text, decode bytes = some text ↔ Groups bytes (text.toList.flatMap Utf16.unitsOf)) ∧
      ∀ behind, ∃ k ≤ bytes.length,
        (walk (fun i => (bytes ++ behind).getD i 0) bytes.length 0).run.run [] = (units bytes, List.range k) ∧
          (k = bytes.length ∨ units bytes = none) :=
  ⟨decode_encode, decode_eq_none_iff, fun _ => decode_eq_some_iff, walk_eq bytes⟩

end ModifiedUtf8

end Jvm.Text
