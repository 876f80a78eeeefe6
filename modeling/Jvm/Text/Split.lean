/-!
# Splitting text at a separator

`splitAt sep` cuts a text at every `sep` and keeps empty pieces, so pieces that were joined with `sep`
are found again (`splitAt_intercalate`).
-/

namespace Jvm.Text

/-- The pieces of a text between the occurrences of `sep`, in order; there is always one. -/
def splitAt (sep : Char) : List Char → List (List Char)
  | [] => [[]]
  | c :: rest =>
    if c = sep then [] :: splitAt sep rest
    else
      match splitAt sep rest with
      | [] => [[c]]
      | piece :: pieces => (c :: piece) :: pieces

theorem splitAt_ne_nil (sep : Char) (text : List Char) : splitAt sep text ≠ [] := by
  cases text with
  | nil => simp [splitAt]
  | cons c rest =>
    unfold splitAt
    split
    · simp
    · split <;> simp

/-- No piece holds the separator. -/
theorem not_mem_of_mem_splitAt {sep : Char} {text piece : List Char}
    (h : piece ∈ splitAt sep text) : sep ∉ piece := by
  induction text generalizing piece with
  | nil =>
    simp only [splitAt, List.mem_singleton] at h
    simp [h]
  | cons c rest ih =>
    unfold splitAt at h
    split at h
    · rcases List.mem_cons.1 h with rfl | h
      · simp
      · exact ih h
    · rename_i hc
      split at h
      · simp only [List.mem_singleton] at h
        subst h
        simpa [eq_comm] using hc
      · rename_i p ps heq
        rw [heq] at ih
        rcases List.mem_cons.1 h with rfl | h
        · have hp := ih (List.mem_cons_self ..)
          intro hmem
          rcases List.mem_cons.1 hmem with hsep | hmem
          · exact hc hsep.symm
          · exact hp hmem
        · exact ih (List.mem_cons_of_mem _ h)

/-- A piece has only characters of the text. -/
theorem mem_of_mem_splitAt {sep c : Char} {text piece : List Char} (h : piece ∈ splitAt sep text)
    (hc : c ∈ piece) : c ∈ text := by
  induction text generalizing piece with
  | nil => simp_all [splitAt]
  | cons d rest ih =>
    unfold splitAt at h
    split at h
    · rcases List.mem_cons.1 h with rfl | h
      · simp at hc
      · exact List.mem_cons_of_mem d (ih h hc)
    · cases hrest : splitAt sep rest with
      | nil => exact absurd hrest (splitAt_ne_nil sep rest)
      | cons next pieces =>
        rw [hrest] at h
        rcases List.mem_cons.1 h with rfl | h
        · rcases List.mem_cons.1 hc with rfl | hc
          · simp
          · exact List.mem_cons_of_mem d (ih (by simp [hrest]) hc)
        · exact List.mem_cons_of_mem d (ih (by simp [hrest, h]) hc)

theorem splitAt_of_not_mem {sep : Char} {text : List Char} (h : sep ∉ text) : splitAt sep text = [text] := by
  induction text with
  | nil => rfl
  | cons c rest ih =>
    simp only [List.mem_cons, not_or] at h
    rw [splitAt, if_neg (Ne.symm h.1), ih h.2]

theorem splitAt_append (sep : Char) (text rest : List Char) :
    splitAt sep (text ++ sep :: rest) = splitAt sep text ++ splitAt sep rest := by
  induction text with
  | nil => simp [splitAt]
  | cons c text ih =>
    by_cases hc : c = sep
    · rw [List.cons_append, splitAt, if_pos hc, ih, splitAt, if_pos hc, List.cons_append]
    · cases hpieces : splitAt sep text with
      | nil => exact absurd hpieces (splitAt_ne_nil sep text)
      | cons piece pieces =>
        rw [hpieces] at ih
        simp only [List.cons_append, splitAt, if_neg hc, ih, hpieces]

/-- Pieces without the separator are found again. -/
theorem splitAt_intercalate {sep : Char} {pieces : List (List Char)} (hne : pieces ≠ [])
    (h : ∀ piece ∈ pieces, sep ∉ piece) : splitAt sep ([sep].intercalate pieces) = pieces := by
  induction pieces with
  | nil => exact absurd rfl hne
  | cons piece pieces ih =>
    have hpiece := h piece (by simp)
    cases pieces with
    | nil => simpa using splitAt_of_not_mem hpiece
    | cons next pieces =>
      have hrest := ih (by simp) fun other hother => h other (by simp [hother])
      rw [List.intercalate_cons_cons, List.append_assoc, List.singleton_append, splitAt_append, splitAt_of_not_mem hpiece,
        hrest, List.singleton_append]

/-- The same on strings. -/
def splitString (sep : Char) (text : String) : List String :=
  (splitAt sep text.toList).map String.ofList

theorem splitString_append (sep : Char) (text rest : String) :
    splitString sep (text ++ String.singleton sep ++ rest) = splitString sep text ++ splitString sep rest := by
  simp only [splitString, String.toList_append, String.toList_singleton, List.append_assoc, List.singleton_append,
    splitAt_append, List.map_append]

end Jvm.Text
