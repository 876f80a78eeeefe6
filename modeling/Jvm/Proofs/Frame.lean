import Jvm.Frame
import Jvm.Proofs.Monad

/-!
# Computations on one frame

Whatever an instruction does within its frame, succeed or fail, the frame stays an invocation of the
same method with as many locals (`perform_continues`). The lemmas follow the `do` blocks: one rule
for each elementary computation, and `bind` puts them together.
-/

namespace Jvm

namespace Frame

/-- `f'` is a later state of the invocation `f`. -/
structure Continues (f f' : Frame) : Prop where
  owner : f'.owner = f.owner
  method : f'.method = f.method
  locals : f'.locals.size = f.locals.size

theorem Continues.refl (f : Frame) : f.Continues f := ⟨rfl, rfl, rfl⟩

theorem Continues.trans {f g h : Frame} (hg : f.Continues g) (hh : g.Continues h) : f.Continues h :=
  ⟨hh.owner.trans hg.owner, hh.method.trans hg.method, hh.locals.trans hg.locals⟩

theorem getElem?_of_fetch? {f : Frame} {code : Code} {inst : Instruction Nat} (hcode : f.method.code = some code)
    (h : f.fetch? = .ok inst) : code[f.pc]? = some inst := by
  simp only [fetch?, hcode] at h
  split at h
  · cases h
    assumption
  · cases h

/-- A computation that leaves each frame it works on a later state of the same invocation. -/
def Keeps {α : Type} (act : OnFrame α) : Prop :=
  ∀ f, match act f with
    | .ok _ f' => f.Continues f'
    | .error _ f' => f.Continues f'

section
variable {α β : Type} {act : OnFrame α} {f f' : Frame}

theorem Keeps.of_ok {a : α} (hk : Keeps act) (h : act f = .ok a f') : f.Continues f' := by
  have := hk f
  rwa [h] at this

theorem Keeps.of_error {e : Error} (hk : Keeps act) (h : act f = .error e f') : f.Continues f' := by
  have := hk f
  rwa [h] at this

theorem Keeps.bind {k : α → OnFrame β} (ha : Keeps act) (hk : ∀ a, Keeps (k a)) : Keeps (act >>= k) := by
  intro f
  cases h : act f with
  | error e g =>
    rw [bind_of_error h]
    exact ha.of_error h
  | ok a g =>
    rw [bind_of_ok h]
    have hg := ha.of_ok h
    cases h' : k a g with
    | ok b g' => exact hg.trans ((hk a).of_ok h')
    | error e g' => exact hg.trans ((hk a).of_error h')

theorem keeps_pure (a : α) : Keeps (pure a : OnFrame α) := fun f => .refl f

theorem keeps_throw (e : Error) : Keeps (throw e : OnFrame α) := fun f => .refl f

theorem keeps_get : Keeps (get : OnFrame Frame) := fun f => .refl f

theorem keeps_ofExcept (r : Except Error α) : Keeps (MonadExcept.ofExcept r : OnFrame α) := by
  cases r with
  | ok a => exact keeps_pure a
  | error e => exact keeps_throw e

end

theorem keeps_push (v : Value) : Keeps (push v) := fun _ => ⟨rfl, rfl, rfl⟩

theorem keeps_jump (target : Nat) : Keeps (jump target) := fun _ => ⟨rfl, rfl, rfl⟩

theorem keeps_pop : Keeps pop := by
  intro f
  unfold pop
  cases f.stack with
  | nil => exact .refl f
  | cons v rest => exact ⟨rfl, rfl, rfl⟩

theorem popInt_eq (f : Frame) :
    popInt f =
      match f.stack with
      | [] => .error .stackUnderflow f
      | v :: rest =>
        match v.asInt with
        | .ok i => .ok i { f with stack := rest }
        | .error e => .error e { f with stack := rest } := by
  cases hs : f.stack with
  | nil => rw [popInt, bind_of_error (show pop f = .error .stackUnderflow f by simp only [pop, hs])]
  | cons v rest =>
    rw [popInt, bind_of_ok (show pop f = .ok v { f with stack := rest } by simp only [pop, hs])]
    simp only
    cases v.asInt <;> rfl

theorem popReference_eq (f : Frame) :
    popReference f =
      match f.stack with
      | [] => .error .stackUnderflow f
      | v :: rest =>
        match v.asReference with
        | .ok v => .ok v { f with stack := rest }
        | .error e => .error e { f with stack := rest } := by
  cases hs : f.stack with
  | nil => rw [popReference, bind_of_error (show pop f = .error .stackUnderflow f by simp only [pop, hs])]
  | cons v rest =>
    rw [popReference, bind_of_ok (show pop f = .ok v { f with stack := rest } by simp only [pop, hs])]
    simp only
    cases v.asReference <;> rfl

/-- An integer that is popped was on top of the operand stack, and nothing else of the frame changes. -/
theorem popInt_ok {f f' : Frame} {i : Int32} (h : popInt f = .ok i f') :
    f.stack = .int i :: f'.stack ∧ f'.pc = f.pc := by
  rw [popInt_eq] at h
  cases hs : f.stack with
  | nil => simp [hs] at h
  | cons v rest =>
    cases v with
    | int j =>
      simp only [hs, Value.asInt, EStateM.Result.ok.injEq] at h
      obtain ⟨rfl, rfl⟩ := h
      exact ⟨rfl, rfl⟩
    | _ => simp [hs, Value.asInt] at h

theorem popReference_ok {f f' : Frame} {v : Value} (h : popReference f = .ok v f') :
    f.stack = v :: f'.stack ∧ f'.pc = f.pc := by
  rw [popReference_eq] at h
  cases hs : f.stack with
  | nil => simp [hs] at h
  | cons w rest =>
    cases w with
    | int j => simp [hs, Value.asReference] at h
    | _ =>
      simp only [hs, Value.asReference, EStateM.Result.ok.injEq] at h
      obtain ⟨rfl, rfl⟩ := h
      exact ⟨rfl, rfl⟩

theorem keeps_popInt : Keeps popInt := keeps_pop.bind fun _ => keeps_ofExcept _

theorem keeps_popReference : Keeps popReference := keeps_pop.bind fun _ => keeps_ofExcept _

theorem keeps_load (index : UInt16) : Keeps (load index) := by
  refine keeps_get.bind fun f => ?_
  cases f.locals[index.toNat]? with
  | none => exact keeps_throw _
  | some v => exact keeps_pure v

theorem store_eq (index : UInt16) (v : Value) (f : Frame) :
    store index v f =
      if index.toNat < f.locals.size then .ok () { f with locals := f.locals.setIfInBounds index.toNat v }
      else .error (.invalidFrameAccess (.noLocal index)) f := by
  rw [store, bind_of_ok (show (get : OnFrame Frame) f = .ok f f from rfl)]
  split <;> rfl

theorem keeps_store (index : UInt16) (v : Value) : Keeps (store index v) := by
  intro f
  by_cases h : index.toNat < f.locals.size
  · rw [store_eq, if_pos h]
    exact ⟨rfl, rfl, Array.size_setIfInBounds⟩
  · rw [store_eq, if_neg h]
    exact .refl f

/-- A branch that is taken if `test` holds. -/
theorem keeps_jumpIf (test : Bool) (target : Nat) : Keeps (if test then jump target else pure ()) := by
  cases test with
  | true => exact keeps_jump target
  | false => exact keeps_pure ()

/-- An instruction that stays within its frame keeps the invocation. -/
theorem perform_continues (op : FrameOperation) (inst : Instruction Nat) : Keeps (perform op inst) := by
  cases op with
  | nop => exact keeps_pure ()
  | pushNull => exact keeps_push _
  | pushInt => exact (keeps_ofExcept _).bind fun _ => keeps_push _
  | loadConstant =>
    exact (keeps_ofExcept _).bind fun _ => keeps_get.bind fun _ =>
      (keeps_ofExcept _).bind fun _ => keeps_push _
  | loadInt =>
    exact (keeps_ofExcept _).bind fun _ => (keeps_load _).bind fun _ =>
      (keeps_ofExcept _).bind fun _ => keeps_push _
  | loadReference =>
    exact (keeps_ofExcept _).bind fun _ => (keeps_load _).bind fun _ =>
      (keeps_ofExcept _).bind fun _ => keeps_push _
  | storeInt =>
    exact keeps_popInt.bind fun _ => (keeps_ofExcept _).bind fun _ => keeps_store _ _
  | storeReference =>
    exact keeps_popReference.bind fun _ => (keeps_ofExcept _).bind fun _ => keeps_store _ _
  | pop => exact keeps_pop.bind fun _ => keeps_pure ()
  | dup =>
    refine keeps_get.bind fun f => ?_
    cases f.stack.head? with
    | none => exact keeps_throw _
    | some v => exact keeps_push v
  | swap =>
    exact keeps_pop.bind fun _ => keeps_pop.bind fun _ =>
      (keeps_push _).bind fun _ => keeps_push _
  | arithmetic op =>
    refine keeps_popInt.bind fun b => keeps_popInt.bind fun a => ?_
    cases op.result? a b with
    | none => exact keeps_throw _
    | some v => exact keeps_push _
  | negate => exact keeps_popInt.bind fun _ => keeps_push _
  | increment =>
    exact (keeps_ofExcept _).bind fun _ => (keeps_load _).bind fun _ =>
      (keeps_ofExcept _).bind fun _ => keeps_store _ _
  | branchZero test =>
    exact (keeps_ofExcept _).bind fun _ => keeps_popInt.bind fun _ => keeps_jumpIf _ _
  | branchCompare test =>
    exact (keeps_ofExcept _).bind fun _ => keeps_popInt.bind fun _ =>
      keeps_popInt.bind fun _ => keeps_jumpIf _ _
  | branchNull expected =>
    exact (keeps_ofExcept _).bind fun _ => keeps_popReference.bind fun _ => keeps_jumpIf _ _
  | goto => exact (keeps_ofExcept _).bind fun _ => keeps_jump _

end Frame

end Jvm
