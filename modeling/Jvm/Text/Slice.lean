/-!
# Cutting a text at a byte

A position in a text is the number of bytes before it in UTF-8. A text can be cut between two
characters and nowhere else: a cut anywhere else ends the program that tries it.
-/

namespace Jvm.Text

/-- Why a text cannot be cut at a position. -/
inductive CutError where
  | withinCharacter
  | behindEnd
deriving DecidableEq, Repr

/-- Number of bytes of a text in UTF-8. -/
def byteLength : List Char → Nat
  | [] => 0
  | c :: text => c.utf8Size + byteLength text

/-- Where the first `c` in a text is. -/
def find? (c : Char) : List Char → Option Nat
  | [] => none
  | d :: text => if d = c then some 0 else (find? c text).map (d.utf8Size + ·)

/-- The text from a position on. -/
def cutAt (position : Nat) : List Char → Except CutError (List Char)
  | [] => if position = 0 then .ok [] else .error .behindEnd
  | c :: text =>
    if position = 0 then .ok (c :: text)
    else if position < c.utf8Size then .error .withinCharacter
    else cutAt (position - c.utf8Size) text

/-- A cut behind the beginning leaves less of the text. -/
theorem length_lt_of_cutAt {position : Nat} {text rest : List Char} (h : cutAt position text = .ok rest)
    (hpos : 0 < position) : rest.length < text.length := by
  induction text generalizing position with
  | nil =>
    rw [cutAt, if_neg (Nat.ne_of_gt hpos)] at h
    cases h
  | cons c text ih =>
    rw [cutAt, if_neg (Nat.ne_of_gt hpos)] at h
    split at h
    · cases h
    · rw [List.length_cons]
      rcases Nat.eq_zero_or_pos (position - c.utf8Size) with hzero | hmore
      · rw [hzero] at h
        have hrest : rest = text := by
          cases text <;> exact (Except.ok.inj h).symm
        rw [hrest]
        exact Nat.lt_succ_self _
      · exact Nat.lt_succ_of_lt (ih h hmore)

end Jvm.Text
