import Mathlib

/-!
# The last of several

Where of several elements with one property the last one counts: which one that is, said for a list
that grows at its end.
-/

namespace Jvm

/-- The last element of a list that has the property `p`. -/
structure LastWith {α : Type} (p : α → Prop) (l : List α) (a : α) : Prop where
  has : p a
  last : ∃ before after, l = before ++ a :: after ∧ ∀ x ∈ after, ¬p x

section
variable {α : Type} {p : α → Prop} {l : List α} {a x : α}

/-- One more element is the last one if it has the property, and else makes no difference. -/
theorem lastWith_concat_iff : LastWith p (l ++ [x]) a ↔ (p x ∧ x = a) ∨ (¬p x ∧ LastWith p l a) := by
  constructor
  · rintro ⟨ha, before, after, hsplit, hafter⟩
    rcases List.eq_nil_or_concat' after with rfl | ⟨after, last, rfl⟩
    · obtain ⟨-, hx⟩ := List.append_inj' hsplit rfl
      cases hx
      exact .inl ⟨ha, rfl⟩
    · rw [← List.cons_append, ← List.append_assoc] at hsplit
      obtain ⟨rfl, hx⟩ := List.append_inj' hsplit rfl
      cases hx
      exact .inr ⟨hafter x (by simp), ha, before, after, rfl, fun y hy => hafter y (by simp [hy])⟩
  · rintro (⟨ha, rfl⟩ | ⟨hx, ha, before, after, rfl, hafter⟩)
    · exact ⟨ha, l, [], rfl, by simp⟩
    · refine ⟨ha, before, after ++ [x], by simp, ?_⟩
      intro y hy
      rcases List.mem_append.1 hy with hy | hy
      · exact hafter y hy
      · rwa [List.mem_singleton.1 hy]

theorem LastWith.mem (h : LastWith p l a) : a ∈ l := by
  obtain ⟨before, after, rfl, -⟩ := h.last
  simp

theorem exists_lastWith (h : ∃ x ∈ l, p x) : ∃ a, LastWith p l a := by
  induction l using List.reverseRecOn with
  | nil => simp at h
  | append_singleton l added ih =>
    by_cases hadded : p added
    · exact ⟨added, lastWith_concat_iff.2 (.inl ⟨hadded, rfl⟩)⟩
    · obtain ⟨x, hmem, hx⟩ := h
      have hold : x ∈ l := by
        rcases List.mem_append.1 hmem with hmem | hmem
        · exact hmem
        · exact absurd (List.mem_singleton.1 hmem ▸ hx) hadded
      obtain ⟨a, ha⟩ := ih ⟨x, hold, hx⟩
      exact ⟨a, lastWith_concat_iff.2 (.inr ⟨hadded, ha⟩)⟩

end

end Jvm
