import Jvm.Class
import Mathlib.Data.List.Perm.Basic

/-!
# Where the program of a class starts

The usual `main` is found by name and descriptor. Without it the program starts with the first static
`main` without parameters that the table of methods gives, and which one is the first is up to the order of
the table. So the order does not matter where there is no choice (`OneEntry`), and it does wherever there is
one (`oneEntry_iff`).
-/

namespace Jvm

/-- What is found first is found in any order, if there is nothing else to find. -/
theorem find?_eq_of_perm {α : Type} {p : α → Bool} {l l' : List α} (hperm : l.Perm l')
    (hone : ∀ a ∈ l, ∀ b ∈ l, p a → p b → a = b) : l.find? p = l'.find? p := by
  cases h : l.find? p with
  | none =>
    rw [List.find?_eq_none] at h
    exact (List.find?_eq_none.2 fun a hmem => h a (hperm.mem_iff.2 hmem)).symm
  | some a =>
    have hmem := List.mem_of_find?_eq_some h
    have ha := List.find?_some h
    obtain ⟨b, hb⟩ := Option.isSome_iff_exists.1 (List.find?_isSome.2 ⟨a, hperm.mem_iff.1 hmem, ha⟩)
    have hmem' := hperm.mem_iff.2 (List.mem_of_find?_eq_some hb)
    rw [hb, hone a hmem b hmem' ha (List.find?_some hb)]

/-- The order of the class file, but the method comes before all others of its class. -/
def MethodOrder.first (method : Method) : MethodOrder where
  methods c := if method ∈ c.methods then method :: c.methods.erase method else c.methods
  perm c := by
    split
    · exact (List.perm_cons_erase ‹_›).symm
    · exact .refl _

namespace Class
variable {c : Class} {order : MethodOrder} {method : Method}

/-- A program starts with the usual method or with one that may stand for it. -/
theorem usual_or_mayStart (h : c.entryPoint? order = some method) :
    c.method? entryName entryDescriptor = some method ∨ method ∈ c.methods ∧ mayStart method := by
  unfold entryPoint? at h
  split at h
  · cases h
    exact .inl ‹_›
  · exact .inr ⟨(order.perm c).mem_iff.1 (List.mem_of_find?_eq_some h), List.find?_some h⟩

theorem mem_of_entryPoint? (h : c.entryPoint? order = some method) : method ∈ c.methods := by
  rcases usual_or_mayStart h with husual | ⟨hmem, -⟩
  · exact List.mem_of_find?_eq_some husual
  · exact hmem

theorem entryPoint?_of_usual (h : c.method? entryName entryDescriptor = some method) (order : MethodOrder) :
    c.entryPoint? order = some method := by
  rw [entryPoint?, h]

theorem entryPoint?_of_unusual (h : c.method? entryName entryDescriptor = none) (order : MethodOrder) :
    c.entryPoint? order = (order.methods c).find? mayStart := by
  rw [entryPoint?, h]

/-- There is no choice where the program starts: the class has the usual `main`, or not two that may stand
for it. -/
def OneEntry (c : Class) : Prop :=
  (c.method? entryName entryDescriptor).isSome ∨
    ∀ a ∈ c.methods, ∀ b ∈ c.methods, mayStart a → mayStart b → a = b

instance (c : Class) : Decidable c.OneEntry := inferInstanceAs (Decidable (_ ∨ _))

theorem OneEntry.entryPoint?_eq (h : c.OneEntry) (order order' : MethodOrder) :
    c.entryPoint? order = c.entryPoint? order' := by
  cases husual : c.method? entryName entryDescriptor with
  | some method => rw [entryPoint?_of_usual husual, entryPoint?_of_usual husual]
  | none =>
    have hone := h.resolve_left (by rw [husual]; exact Bool.false_ne_true)
    rw [entryPoint?_of_unusual husual, entryPoint?_of_unusual husual]
    refine find?_eq_of_perm ((order.perm c).trans (order'.perm c).symm) fun a ha b hb => ?_
    exact hone a ((order.perm c).mem_iff.1 ha) b ((order.perm c).mem_iff.1 hb)

theorem entryPoint?_first (husual : c.method? entryName entryDescriptor = none) (hmem : method ∈ c.methods)
    (hstart : mayStart method) : c.entryPoint? (.first method) = some method := by
  rw [entryPoint?_of_unusual husual, MethodOrder.first]
  simp only [if_pos hmem]
  exact List.find?_cons_of_pos hstart

/-- **The order matters where there is a choice**, and nowhere else. -/
theorem oneEntry_iff : c.OneEntry ↔ ∀ order order', c.entryPoint? order = c.entryPoint? order' := by
  refine ⟨OneEntry.entryPoint?_eq, fun h => ?_⟩
  cases husual : c.method? entryName entryDescriptor with
  | some method => exact .inl (by rw [husual]; rfl)
  | none =>
    refine .inr fun a ha b hb hstarta hstartb => ?_
    have hsame := h (.first a) (.first b)
    rw [entryPoint?_first husual ha hstarta, entryPoint?_first husual hb hstartb] at hsame
    exact Option.some.inj hsame

end Class

end Jvm
