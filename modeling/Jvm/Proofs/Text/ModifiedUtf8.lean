import Jvm.Proofs.Text.Groups

/-!
# Writing modified UTF-8

`encode` writes a text the way class files do. Each character has one UTF-16 unit or a surrogate
pair, and each unit the shortest group that is allowed for it.

Main theorem `decode_encode`: reading gives the text back.
-/

namespace Jvm.Text

/-! ## UTF-16 units of a character -/

namespace Utf16

/-- The units of a character. -/
def unitsOf (c : Char) : List UInt16 :=
  if c.toNat < 0x10000 then [.ofNat c.toNat]
  else [.ofNat (0xd800 + (c.toNat - 0x10000) / 0x400), .ofNat (0xdc00 + (c.toNat - 0x10000) % 0x400)]

/-- No character is a surrogate, and none is past the last plane. -/
theorem toNat_bounds (c : Char) : (c.toNat < 0xd800 ∨ 0xe000 ≤ c.toNat) ∧ c.toNat < 0x110000 := by
  have h := c.valid
  simp only [UInt32.isValidChar, Nat.isValidChar] at h
  change c.val.toNat < 0xd800 ∨ _ at h
  simp only [Char.toNat]
  omega

theorem decode_single {u : UInt16} (hhigh : isHighSurrogate u = false) (hlow : isLowSurrogate u = false)
    (rest : List UInt16) : decode (u :: rest) = (Char.ofNat u.toNat :: ·) <$> decode rest := by
  cases rest with
  | nil => simp [decode, hhigh, hlow]
  | cons v rest => simp [decode, hhigh, hlow]

theorem decode_pair {u v : UInt16} (hhigh : isHighSurrogate u = true) (hlow : isLowSurrogate v = true)
    (rest : List UInt16) : decode (u :: v :: rest) = (pairedChar u v :: ·) <$> decode rest := by
  simp [decode, hhigh, hlow]

theorem decode_unitsOf (c : Char) (rest : List UInt16) :
    decode (unitsOf c ++ rest) = (c :: ·) <$> decode rest := by
  obtain ⟨hsurrogate, hlast⟩ := toNat_bounds c
  unfold unitsOf
  by_cases h : c.toNat < 0x10000
  · rw [if_pos h]
    have hunit : (UInt16.ofNat c.toNat).toNat = c.toNat := by
      rw [UInt16.toNat_ofNat', Nat.mod_eq_of_lt h]
    have hhigh : isHighSurrogate (.ofNat c.toNat) = false := by
      simp only [isHighSurrogate, hunit, Bool.and_eq_false_imp, decide_eq_true_eq, decide_eq_false_iff_not]
      omega
    have hlow : isLowSurrogate (.ofNat c.toNat) = false := by
      simp only [isLowSurrogate, hunit, Bool.and_eq_false_imp, decide_eq_true_eq, decide_eq_false_iff_not]
      omega
    rw [List.singleton_append, decode_single hhigh hlow, hunit, Char.ofNat_toNat]
  · rw [if_neg h]
    have hdiv : (c.toNat - 0x10000) / 0x400 < 0x400 := by omega
    have hmod : (c.toNat - 0x10000) % 0x400 < 0x400 := Nat.mod_lt _ (by omega)
    have hu : (UInt16.ofNat (0xd800 + (c.toNat - 0x10000) / 0x400)).toNat =
        0xd800 + (c.toNat - 0x10000) / 0x400 := by
      rw [UInt16.toNat_ofNat', Nat.mod_eq_of_lt (by omega)]
    have hv : (UInt16.ofNat (0xdc00 + (c.toNat - 0x10000) % 0x400)).toNat =
        0xdc00 + (c.toNat - 0x10000) % 0x400 := by
      rw [UInt16.toNat_ofNat', Nat.mod_eq_of_lt (by omega)]
    have hhigh : isHighSurrogate (.ofNat (0xd800 + (c.toNat - 0x10000) / 0x400)) = true := by
      simp only [isHighSurrogate, hu, Bool.and_eq_true, decide_eq_true_eq]
      omega
    have hlow : isLowSurrogate (.ofNat (0xdc00 + (c.toNat - 0x10000) % 0x400)) = true := by
      simp only [isLowSurrogate, hv, Bool.and_eq_true, decide_eq_true_eq]
      omega
    have hchar : pairedChar (.ofNat (0xd800 + (c.toNat - 0x10000) / 0x400))
        (.ofNat (0xdc00 + (c.toNat - 0x10000) % 0x400)) = c := by
      have hsum : 0x10000 + (0xd800 + (c.toNat - 0x10000) / 0x400 - 0xd800) * 0x400 +
          (0xdc00 + (c.toNat - 0x10000) % 0x400 - 0xdc00) = c.toNat := by omega
      rw [pairedChar, hu, hv, hsum, Char.ofNat_toNat]
    rw [List.cons_append, List.singleton_append, decode_pair hhigh hlow, hchar]

theorem decode_flatMap_unitsOf (chars : List Char) : decode (chars.flatMap unitsOf) = some chars := by
  induction chars with
  | nil => rfl
  | cons c rest ih =>
    rw [List.flatMap_cons, decode_unitsOf, ih]
    rfl

end Utf16

/-! ## Groups of a unit -/

namespace ModifiedUtf8

/-- The group of a unit. NUL has two bytes, so that no byte of a text is zero. -/
def group (u : UInt16) : Bytes :=
  if u.toNat ≠ 0 ∧ u.toNat < 0x80 then [.ofNat u.toNat]
  else if u.toNat < 0x800 then [.ofNat (0xc0 + u.toNat / 64), .ofNat (0x80 + u.toNat % 64)]
  else [.ofNat (0xe0 + u.toNat / 4096), .ofNat (0x80 + u.toNat / 64 % 64), .ofNat (0x80 + u.toNat % 64)]

/-- The bytes that a class file has for a text. -/
def encode (text : String) : Bytes := text.toList.flatMap fun c => (Utf16.unitsOf c).flatMap group

theorem toNat_byte {n : Nat} (h : n < 256) : (UInt8.ofNat n).toNat = n := by
  rw [UInt8.toNat_ofNat', Nat.mod_eq_of_lt h]

theorem continues_byte {n : Nat} (h : n < 64) : Continues (.ofNat (0x80 + n)) := by
  rw [Continues, toNat_byte (by omega)]
  omega

/-- A written group is one that can be read. -/
theorem group_written (u : UInt16) : Group (group u) u := by
  have hlt := u.toNat_lt
  have hmid : u.toNat / 64 % 64 < 64 := Nat.mod_lt _ (by omega)
  have hlow : u.toNat % 64 < 64 := Nat.mod_lt _ (by omega)
  unfold group
  split
  · apply Group.one <;> rw [toNat_byte (by omega)] <;> omega
  · split
    · have ha := toNat_byte (show 0xc0 + u.toNat / 64 < 256 by omega)
      have hb := toNat_byte (show 0x80 + u.toNat % 64 < 256 by omega)
      exact .two (by omega) (by omega) (continues_byte hlow) (by omega)
    · have ha := toNat_byte (show 0xe0 + u.toNat / 4096 < 256 by omega)
      have hb := toNat_byte (show 0x80 + u.toNat / 64 % 64 < 256 by omega)
      have hc := toNat_byte (show 0x80 + u.toNat % 64 < 256 by omega)
      exact .three (by omega) (by omega) (continues_byte hmid) (continues_byte hlow) (by omega)

theorem units_flatMap_group (us : List UInt16) : units (us.flatMap group) = some us := by
  induction us with
  | nil => rfl
  | cons u us ih =>
    rw [List.flatMap_cons, (group_written u).units_append, ih]
    rfl

/-- **Reading undoes writing.** -/
theorem decode_encode (text : String) : decode (encode text) = some text := by
  have hunits : encode text = (text.toList.flatMap Utf16.unitsOf).flatMap group := by
    rw [encode, List.flatMap_assoc]
  rw [decode, hunits, units_flatMap_group]
  change (Utf16.decode (text.toList.flatMap Utf16.unitsOf)).map String.ofList = some text
  rw [Utf16.decode_flatMap_unitsOf, Option.map_some, String.ofList_toList]

end ModifiedUtf8

end Jvm.Text
