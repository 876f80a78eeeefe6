import Jvm.Text.Slice
import Mathlib

/-!
# Where texts can be cut

A text is cut between two characters: `cutAt_eq_ok_iff` says that a cut succeeds just if some characters of the
text are so many bytes long, and what is left then. `find?_eq_some_iff` says the same of the first place of a
character.
-/

namespace Jvm.Text

variable {c : Char} {text front rest : List Char} {position : Nat}

@[simp] theorem byteLength_nil : byteLength [] = 0 := rfl

@[simp] theorem byteLength_cons (c : Char) (text : List Char) :
    byteLength (c :: text) = c.utf8Size + byteLength text := rfl

@[simp] theorem byteLength_append (front rest : List Char) :
    byteLength (front ++ rest) = byteLength front + byteLength rest := by
  induction front with
  | nil => simp
  | cons c front ih => simp [ih, Nat.add_assoc]

theorem byteLength_eq_zero_iff : byteLength text = 0 ↔ text = [] := by
  cases text with
  | nil => simp
  | cons c text => simp [Nat.ne_of_gt c.utf8Size_pos]

/-- The bytes of a string are those of its characters. -/
theorem byteLength_toList (s : String) : byteLength s.toList = s.utf8ByteSize := by
  have hlist (text : List Char) : byteLength text = (String.ofList text).utf8ByteSize := by
    induction text with
    | nil => rfl
    | cons c text ih =>
      have hcons : String.ofList (c :: text) = String.singleton c ++ String.ofList text := by
        rw [String.singleton_eq_ofList, ← String.ofList_append]
        rfl
      rw [hcons, String.utf8ByteSize_append, String.utf8ByteSize_singleton, byteLength_cons, ih]
  rw [hlist, String.ofList_toList]

/-! ## Cuts -/

theorem cutAt_zero (text : List Char) : cutAt 0 text = .ok text := by
  cases text <;> rfl

/-- A text can be cut behind any of its characters. -/
theorem cutAt_append (front rest : List Char) : cutAt (byteLength front) (front ++ rest) = .ok rest := by
  induction front with
  | nil => exact cutAt_zero rest
  | cons c front ih =>
    have hpos := c.utf8Size_pos
    rw [List.cons_append, byteLength_cons, cutAt, if_neg (by omega), if_neg (by omega), Nat.add_sub_cancel_left, ih]

/-- Where a text can be cut. -/
theorem cutAt_eq_ok_iff :
    cutAt position text = .ok rest ↔ ∃ front, text = front ++ rest ∧ byteLength front = position := by
  constructor
  · intro h
    induction text generalizing position with
    | nil =>
      rw [cutAt] at h
      split at h
      · cases h
        exact ⟨[], rfl, by simp [*]⟩
      · cases h
    | cons c text ih =>
      rw [cutAt] at h
      split at h
      · cases h
        exact ⟨[], rfl, by simp [*]⟩
      · split at h
        · cases h
        · obtain ⟨front, rfl, hfront⟩ := ih h
          refine ⟨c :: front, rfl, ?_⟩
          rw [byteLength_cons]
          omega
  · rintro ⟨front, rfl, rfl⟩
    exact cutAt_append front rest

/-! ## The first place of a character -/

theorem find?_append (h : c ∉ front) (rest : List Char) :
    find? c (front ++ c :: rest) = some (byteLength front) := by
  induction front with
  | nil => simp [find?]
  | cons d front ih =>
    rw [List.mem_cons, not_or] at h
    rw [List.cons_append, find?, if_neg (Ne.symm h.1), ih h.2, Option.map_some, byteLength_cons]

/-- A character is first where none of those before it is the same. -/
theorem find?_eq_some_iff :
    find? c text = some position ↔ ∃ front rest, text = front ++ c :: rest ∧ c ∉ front ∧ byteLength front = position := by
  constructor
  · intro h
    induction text generalizing position with
    | nil => cases h
    | cons d text ih =>
      rw [find?] at h
      split at h
      case isTrue heq =>
        cases h
        exact ⟨[], text, by rw [heq]; rfl, List.not_mem_nil, rfl⟩
      case isFalse hne =>
        obtain ⟨n, hn, rfl⟩ := Option.map_eq_some_iff.1 h
        obtain ⟨front, rest, rfl, hfront, rfl⟩ := ih hn
        exact ⟨d :: front, rest, rfl, List.not_mem_cons_of_ne_of_not_mem (Ne.symm hne) hfront, rfl⟩
  · rintro ⟨front, rest, rfl, hfront, rfl⟩
    exact find?_append hfront rest

end Jvm.Text
