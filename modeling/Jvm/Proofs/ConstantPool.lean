import Jvm.ConstantPool

/-!
# What a constant pool refers to

The look-ups as relations between a pool, a slot and what is found there. A look-up fails just if the
slot is related to nothing, and then its error names the first link that is broken.
-/

namespace Jvm.ConstantPool

/-- The slot holds this text. -/
def Holds (pool : ConstantPool) (index : UInt16) (text : String) : Prop := pool.get? index = some (.utf8 text)

/-- The slot refers to the class of this name. -/
def NamesClass (pool : ConstantPool) (index : UInt16) (name : String) : Prop :=
  ∃ slot, pool.get? index = some (.classRef slot) ∧ pool.Holds slot name

/-- The first thing wrong with a slot that has to refer to a class. -/
inductive ClassDefect (pool : ConstantPool) (index : UInt16) : Defect → Prop
  | entry (h : ∀ slot, pool.get? index ≠ some (.classRef slot)) :
    ClassDefect pool index (.malformedReference index .classRef)
  | name {slot : UInt16} (hentry : pool.get? index = some (.classRef slot)) (h : ∀ text, ¬pool.Holds slot text) :
    ClassDefect pool index (.malformedReference slot .utf8)

variable {pool : ConstantPool} {index : UInt16} {text text' name : String} {d : Defect}

theorem Holds.unique (h : pool.Holds index text) (h' : pool.Holds index text') : text = text' := by
  unfold Holds at h h'
  rw [h] at h'
  cases h'
  rfl

theorem utf8_eq_ok_iff : pool.utf8 index = .ok text ↔ pool.Holds index text := by
  constructor
  · intro h
    unfold utf8 at h
    split at h
    · rename_i text' hget
      cases h
      exact hget
    · cases h
  · intro h
    unfold Holds at h
    rw [utf8, h]

theorem utf8_eq_error_iff :
    pool.utf8 index = .error d ↔ (∀ text, ¬pool.Holds index text) ∧ d = .malformedReference index .utf8 := by
  constructor
  · intro h
    unfold utf8 at h
    split at h
    · cases h
    · rename_i hother
      cases h
      exact ⟨hother, rfl⟩
  · rintro ⟨h, rfl⟩
    cases hutf8 : pool.utf8 index with
    | ok text => exact absurd (utf8_eq_ok_iff.1 hutf8) (h text)
    | error d =>
      unfold utf8 at hutf8
      split at hutf8 <;> cases hutf8
      rfl

theorem className_eq_ok_iff : pool.className index = .ok name ↔ pool.NamesClass index name := by
  constructor
  · intro h
    unfold className at h
    split at h
    · rename_i slot hget
      exact ⟨slot, hget, utf8_eq_ok_iff.1 h⟩
    · cases h
  · rintro ⟨slot, hget, hname⟩
    rw [className, hget]
    exact utf8_eq_ok_iff.2 hname

theorem className_eq_error_iff : pool.className index = .error d ↔ pool.ClassDefect index d := by
  constructor
  · intro h
    unfold className at h
    split at h
    · rename_i slot hget
      obtain ⟨hnone, rfl⟩ := utf8_eq_error_iff.1 h
      exact .name hget hnone
    · rename_i hother
      cases h
      exact .entry hother
  · intro h
    cases h with
    | entry h =>
      unfold className
      split
      · rename_i slot hget
        exact absurd hget (h slot)
      · rfl
    | name hentry h =>
      rw [className, hentry]
      exact utf8_eq_error_iff.2 ⟨h, rfl⟩

end Jvm.ConstantPool
