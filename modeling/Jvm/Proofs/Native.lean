import Jvm.Native
import Jvm.Proofs.Last

/-!
# Registering native members

A table comes about by registrations, one after the other; the standard table does too (`standard_eq`). Of
the registrations of a key the last one counts: `latest?_registerAll` says so for any number of registrations,
whatever else is registered before, between and after them.
-/

namespace Jvm

/-- What a native method is found by. -/
structure NativeKey where
  kind : CallKind
  owner : String
  name : String
  arity : Nat
deriving DecidableEq, Repr

def NativeMethod.key (method : NativeMethod) : NativeKey := ⟨method.kind, method.owner, method.name, method.arity⟩

/-- Something that a host registers. -/
inductive Registration where
  | field (field : NativeField)
  | method (method : NativeMethod)

namespace Registration

/-- The method that is registered. -/
def method? : Registration → Option NativeMethod
  | .field _ => none
  | .method entry => some entry

/-- The key that is registered. -/
def key? (registration : Registration) : Option NativeKey := registration.method?.map (·.key)

theorem key?_field (entry : NativeField) : (field entry).key? = none := rfl

theorem key?_method (entry : NativeMethod) : (method entry).key? = some entry.key := rfl

/-- The last of the registrations of a key is that of `method`. -/
structure Latest (registrations : List Registration) (key : NativeKey) (method : NativeMethod) : Prop where
  key_eq : method.key = key
  last : ∃ before after, registrations = before ++ .method method :: after ∧ ∀ r ∈ after, r.key? ≠ some key

/-- The registrations of the standard members. -/
def standard : List Registration := [
  .field ⟨"java/lang/System", "out", .stream .stdout⟩,
  .field ⟨"java/lang/System", "err", .stream .stderr⟩,
  .method ⟨.virtual, "java/io/PrintStream", "println", 0, Print.println⟩,
  .method ⟨.virtual, "java/io/PrintStream", "println", 1, Print.println⟩,
  .method ⟨.virtual, "java/io/PrintStream", "print", 1, Print.print⟩]

section
variable {registrations : List Registration} {r : Registration} {key : NativeKey} {method : NativeMethod}

theorem eq_method_iff : r = .method method ↔ r.method? = some method := by
  cases r <;> simp [method?]

theorem latest_iff : Latest registrations key method ↔ LastWith (·.key? = some key) registrations (.method method) := by
  constructor
  · rintro ⟨hkey, hlast⟩
    exact ⟨congrArg some hkey, hlast⟩
  · rintro ⟨hkey, hlast⟩
    exact ⟨Option.some.inj hkey, hlast⟩

/-- One more registration is the last one of its key, and of no other key. -/
theorem latest_concat_iff : Latest (registrations ++ [r]) key method ↔
    (r.key? = some key ∧ r.method? = some method) ∨ (r.key? ≠ some key ∧ Latest registrations key method) := by
  rw [latest_iff, latest_iff, lastWith_concat_iff, eq_method_iff]

/-- A key that was ever registered was registered for a last time. -/
theorem exists_latest (h : ∃ r ∈ registrations, r.key? = some key) : ∃ method, Latest registrations key method := by
  obtain ⟨r, hlast⟩ := exists_lastWith h
  cases r with
  | field entry => cases hlast.has
  | method entry => exact ⟨entry, latest_iff.2 hlast⟩

end

end Registration

namespace NativeTable
variable {key : NativeKey} {method : NativeMethod}

/-- The entry of a key that counts. -/
def latest? (table : NativeTable) (key : NativeKey) : Option NativeMethod := table.methods.find? (·.key == key)

/-- Registers a member. -/
def register (table : NativeTable) : Registration → NativeTable
  | .field entry => table.registerField entry
  | .method entry => table.registerMethod entry

/-- Registers one member after the other. -/
def registerAll (table : NativeTable) (registrations : List Registration) : NativeTable :=
  registrations.foldl register table

theorem standard_eq : standard = registerAll {} Registration.standard := rfl

theorem registerAll_append (table : NativeTable) (registrations more : List Registration) :
    table.registerAll (registrations ++ more) = (table.registerAll registrations).registerAll more :=
  List.foldl_append

theorem method?_eq (table : NativeTable) (kind : CallKind) (owner name : String) (arity : Nat) :
    table.method? kind owner name arity = (table.latest? ⟨kind, owner, name, arity⟩).map (·.action) := by
  have hkey : ∀ m : NativeMethod, (m.kind == kind && m.arity == arity && m.owner == owner && m.name == name) =
      (m.key == ⟨kind, owner, name, arity⟩) := by
    intro m
    rw [Bool.eq_iff_iff]
    simp only [NativeMethod.key, Bool.and_eq_true, beq_iff_eq, NativeKey.mk.injEq]
    tauto
  simp only [method?, latest?, hkey]

theorem latest?_register (table : NativeTable) (r : Registration) (key : NativeKey) :
    (table.register r).latest? key = if r.key? = some key then r.method? else table.latest? key := by
  cases r with
  | field entry =>
    rw [Registration.key?_field, if_neg nofun]
    rfl
  | method entry =>
    simp only [Registration.key?_method, Option.some.injEq]
    split <;> rename_i hkey
    · exact List.find?_cons_of_pos (by simp [hkey])
    · exact List.find?_cons_of_neg (by simp [hkey])

/-- **The last registration of a key counts.** -/
theorem latest?_registerAll {registrations : List Registration} :
    (registerAll {} registrations).latest? key = some method ↔ Registration.Latest registrations key method := by
  induction registrations using List.reverseRecOn with
  | nil =>
    constructor
    · intro h
      cases h
    · rintro ⟨-, before, after, hsplit, -⟩
      simp at hsplit
  | append_singleton registrations r ih =>
    rw [registerAll_append, Registration.latest_concat_iff, ← ih]
    show ((registerAll {} registrations).register r).latest? key = _ ↔ _
    rw [latest?_register]
    split <;> rename_i hkey <;> simp [hkey]

/-- What a table starts from. -/
inductive Base where
  | empty
  | standard
deriving DecidableEq, Repr

namespace Base

def table : Base → NativeTable
  | .empty => {}
  | .standard => .standard

/-- What is registered from the start. -/
def registrations : Base → List Registration
  | .empty => []
  | .standard => Registration.standard

theorem registerAll_table (base : Base) (registrations : List Registration) :
    base.table.registerAll registrations = registerAll {} (base.registrations ++ registrations) := by
  rw [registerAll_append]
  cases base with
  | empty => rfl
  | standard => exact congrArg (·.registerAll registrations) standard_eq

end Base

end NativeTable

end Jvm
