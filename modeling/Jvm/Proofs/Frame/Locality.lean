import Jvm.Proofs.Frame

/-!
# What a computation on a frame does not look at

A computation that succeeds has all the operands that it needs. So it does the same, and succeeds again,
if there are more values below those operands, and it leaves these where they are. This is `Local`;
`perform_local` has it for all instructions that stay within their frame. A computation that fails need
not be like that: with more values it may go on.
-/

namespace Jvm.Frame

/-- The frame with values inserted below its operands. -/
def padded (f : Frame) (pad : List Value) : Frame := { f with stack := f.stack ++ pad }

@[simp] theorem padded_nil (f : Frame) : f.padded [] = f := by
  simp only [padded, List.append_nil]

/-- What succeeds does the same above more values. -/
def Local {α : Type} (act : OnFrame α) : Prop :=
  ∀ f a f', act f = .ok a f' → ∀ pad, act (f.padded pad) = .ok a (f'.padded pad)

section
variable {α β : Type}

theorem Local.bind {act : OnFrame α} {k : α → OnFrame β} (h : Local act) (hk : ∀ a, Local (k a)) :
    Local (act >>= k) := by
  intro f b f' hrun pad
  obtain ⟨a, g, hact, hrest⟩ := exists_of_bind_eq_ok hrun
  rw [bind_of_ok (h f a g hact pad)]
  exact hk a g b f' hrest pad

/-- A computation that looks at something of the frame, but not at its operands. -/
theorem Local.bind_get {k : Frame → OnFrame β} (hsame : ∀ f pad, k (f.padded pad) = k f) (hk : ∀ f, Local (k f)) :
    Local (get >>= k) := by
  intro f b f' hrun pad
  show k (f.padded pad) (f.padded pad) = .ok b (f'.padded pad)
  rw [hsame]
  exact hk f f b f' hrun pad

theorem local_pure (a : α) : Local (pure a : OnFrame α) := by
  rintro f _ _ ⟨⟩ pad
  rfl

theorem local_throw (e : Error) : Local (throw e : OnFrame α) := by
  rintro f _ _ ⟨⟩

theorem local_ofExcept (r : Except Error α) : Local (MonadExcept.ofExcept r : OnFrame α) := by
  cases r with
  | ok a => exact local_pure a
  | error e => exact local_throw e

end

theorem local_push (v : Value) : Local (push v) := by
  rintro f _ _ ⟨⟩ pad
  rfl

theorem local_pop : Local pop := by
  intro f a f' h pad
  unfold pop at h ⊢
  cases hs : f.stack with
  | nil =>
    rw [hs] at h
    cases h
  | cons v rest =>
    rw [hs] at h
    cases h
    simp only [padded, hs, List.cons_append]

theorem local_popInt : Local popInt := local_pop.bind fun _ => local_ofExcept _

theorem local_popReference : Local popReference := local_pop.bind fun _ => local_ofExcept _

theorem local_load (index : UInt16) : Local (load index) := by
  refine Local.bind_get (fun _ _ => rfl) fun f => ?_
  cases f.locals[index.toNat]? with
  | none => exact local_throw _
  | some v => exact local_pure v

theorem local_store (index : UInt16) (v : Value) : Local (store index v) := by
  intro f a f' h pad
  rw [store_eq] at h ⊢
  by_cases hlt : index.toNat < f.locals.size
  · rw [if_pos hlt] at h
    cases h
    exact if_pos hlt
  · rw [if_neg hlt] at h
    cases h

theorem local_jump (target : Nat) : Local (jump target) := by
  rintro f _ _ ⟨⟩ pad
  rfl

theorem local_jumpIf (test : Bool) (target : Nat) : Local (if test then jump target else pure ()) := by
  cases test with
  | true => exact local_jump target
  | false => exact local_pure ()

theorem local_dup (inst : Instruction Nat) : Local (perform .dup inst) := by
  rintro ⟨owner, method, pc, stack, locals⟩ a f' h pad
  cases stack with
  | nil => cases h
  | cons v rest =>
    cases h
    rfl

/-- **An instruction that stays within its frame** is local. -/
theorem perform_local (op : FrameOperation) (inst : Instruction Nat) : Local (perform op inst) := by
  cases op with
  | nop => exact local_pure ()
  | pushNull => exact local_push _
  | pushInt => exact (local_ofExcept _).bind fun _ => local_push _
  | loadConstant =>
    exact (local_ofExcept _).bind fun _ => Local.bind_get (fun _ _ => rfl) fun _ =>
      (local_ofExcept _).bind fun _ => local_push _
  | loadInt =>
    exact (local_ofExcept _).bind fun _ => (local_load _).bind fun _ =>
      (local_ofExcept _).bind fun _ => local_push _
  | loadReference =>
    exact (local_ofExcept _).bind fun _ => (local_load _).bind fun _ =>
      (local_ofExcept _).bind fun _ => local_push _
  | storeInt => exact local_popInt.bind fun _ => (local_ofExcept _).bind fun _ => local_store _ _
  | storeReference => exact local_popReference.bind fun _ => (local_ofExcept _).bind fun _ => local_store _ _
  | pop => exact local_pop.bind fun _ => local_pure ()
  | dup => exact local_dup inst
  | swap => exact local_pop.bind fun _ => local_pop.bind fun _ => (local_push _).bind fun _ => local_push _
  | arithmetic op =>
    refine local_popInt.bind fun b => local_popInt.bind fun a => ?_
    cases op.result? a b with
    | none => exact local_throw _
    | some v => exact local_push _
  | negate => exact local_popInt.bind fun _ => local_push _
  | increment =>
    exact (local_ofExcept _).bind fun _ => (local_load _).bind fun _ =>
      (local_ofExcept _).bind fun _ => local_store _ _
  | branchZero test => exact (local_ofExcept _).bind fun _ => local_popInt.bind fun _ => local_jumpIf _ _
  | branchCompare test =>
    exact (local_ofExcept _).bind fun _ => local_popInt.bind fun _ => local_popInt.bind fun _ => local_jumpIf _ _
  | branchNull expected =>
    exact (local_ofExcept _).bind fun _ => local_popReference.bind fun _ => local_jumpIf _ _
  | goto => exact (local_ofExcept _).bind fun _ => local_jump _

end Jvm.Frame
