import Jvm.Proofs.Code.Operands
import Jvm.Proofs.Frame

/-!
# Instructions that fail within their frame

An instruction checks before it writes. So one that fails has done nothing to its frame but take
operands off the stack, and one that succeeds goes on behind itself or at the target of its branch
(`perform_ends`). The same lemma says which errors there can be: an operand of the wrong kind is
reported only if the operation cannot use the one it has.

`Takes` is about the checks at the front of an instruction, and `Ends` about what is left to do
after them.
-/

namespace Jvm

/-- `f'` is `f` with operands taken off the stack, and nothing else is different. -/
structure Frame.Spends (f f' : Frame) : Prop where
  owner : f'.owner = f.owner
  method : f'.method = f.method
  pc : f'.pc = f.pc
  locals : f'.locals = f.locals
  stack : f'.stack <:+ f.stack

/-- The error of an instruction whose operand is not of the kind `kind`. -/
def Instruction.Misfits (inst : Instruction Nat) (kind : Operand.Kind) (e : Error) : Prop :=
  e = .invalidOperand inst.opcode inst.operand ∧ inst.operand.kind ≠ kind

/-- The errors that `inst` can end in, executed as `op`. -/
inductive FrameOperation.Raises (op : FrameOperation) (inst : Instruction Nat) : Error → Prop
  | stackUnderflow : Raises op inst .stackUnderflow
  | typeMismatch (expected : ValueKind) (found : Value) : Raises op inst (.typeMismatch expected found)
  | noLocal (index : UInt16) : Raises op inst (.invalidFrameAccess (.noLocal index))
  | divisionByZero : Raises op inst (.arithmetic "/ by zero")
  | constant (description : String) : Raises op inst (.unsupported (.constant description))
  | notInteger (index : UInt16) : Raises op inst (.defect (.malformedReference index .integer))
  | misfit {kind : Operand.Kind} {e : Error} : op.needs = some kind → inst.Misfits kind e → Raises op inst e

namespace Frame

theorem Spends.refl (f : Frame) : f.Spends f := ⟨rfl, rfl, rfl, rfl, List.suffix_refl _⟩

theorem Spends.trans {f g h : Frame} (hg : f.Spends g) (hh : g.Spends h) : f.Spends h :=
  ⟨hh.owner.trans hg.owner, hh.method.trans hg.method, hh.pc.trans hg.pc, hh.locals.trans hg.locals,
    hh.stack.trans hg.stack⟩

theorem Spends.continues {f f' : Frame} (h : f.Spends f') : f.Continues f' :=
  ⟨h.owner, h.method, by rw [h.locals]⟩

/-- Operands are taken from the top. -/
theorem spends_of_suffix {f : Frame} {rest : List Value} (h : rest <:+ f.stack) :
    f.Spends { f with stack := rest } := ⟨rfl, rfl, rfl, rfl, h⟩

/-- `f'` is `f` after a computation that succeeds: its counter may have moved to the target of `inst`. -/
structure Advances (inst : Instruction Nat) (f f' : Frame) : Prop extends f.Continues f' where
  pc : f'.pc = f.pc ∨ inst.operand = .branch f'.pc

/-- A computation that at most takes operands off the stack, and whose errors are among `p`. -/
def Takes (p : Error → Prop) {α : Type} (act : OnFrame α) : Prop :=
  ∀ f, match act f with
    | .ok _ f' => f.Spends f'
    | .error e f' => f.Spends f' ∧ p e

/-- A computation of `inst` that at most takes operands off the stack if it fails, with an error
among `p`. -/
def Ends (p : Error → Prop) (inst : Instruction Nat) {α : Type} (act : OnFrame α) : Prop :=
  ∀ f, match act f with
    | .ok _ f' => f.Advances inst f'
    | .error e f' => f.Spends f' ∧ p e

section
variable {p : Error → Prop} {inst : Instruction Nat} {α β : Type}

theorem Takes.of_error {act : OnFrame α} (ha : Takes p act) {f f' : Frame} {e : Error} (h : act f = .error e f') :
    f.Spends f' ∧ p e := by
  have hf := ha f
  rwa [h] at hf

/-- Checks come first. -/
theorem Takes.bind {act : OnFrame α} {k : α → OnFrame β} (ha : Takes p act)
    (hk : ∀ a, Ends p inst (k a)) : Ends p inst (act >>= k) := by
  intro f
  have hf := ha f
  cases hact : act f with
  | error e g =>
    rw [hact] at hf
    rw [bind_of_error hact]
    exact hf
  | ok a g =>
    rw [hact] at hf
    rw [bind_of_ok hact]
    have hg := hk a g
    cases hrest : k a g with
    | ok b g' =>
      rw [hrest] at hg
      exact ⟨hf.continues.trans hg.toContinues, by rw [← hf.pc]; exact hg.pc⟩
    | error e g' =>
      rw [hrest] at hg
      exact ⟨hf.trans hg.1, hg.2⟩

/-- A check that does not look at the frame. -/
theorem ends_bind_ofExcept {r : Except Error α} {k : α → OnFrame β}
    (he : ∀ e, r = .error e → p e) (hk : ∀ a, r = .ok a → Ends p inst (k a)) :
    Ends p inst (MonadExcept.ofExcept r >>= k) := by
  cases r with
  | ok a => exact hk a rfl
  | error e => exact fun f => ⟨.refl f, he e rfl⟩

/-! ### Checks -/

theorem takes_get : Takes p (get : OnFrame Frame) := fun f => .refl f

theorem takes_pop (hempty : p .stackUnderflow) : Takes p pop := by
  intro f
  unfold pop
  cases hstack : f.stack with
  | nil => exact ⟨.refl f, hempty⟩
  | cons v rest => exact spends_of_suffix (by rw [hstack]; exact List.suffix_cons v rest)

theorem typeMismatch_of_asInt {v : Value} {e : Error} (h : v.asInt = .error e) :
    ∃ expected found, e = .typeMismatch expected found := by
  cases v <;> cases h <;> exact ⟨_, _, rfl⟩

theorem typeMismatch_of_asReference {v : Value} {e : Error} (h : v.asReference = .error e) :
    ∃ expected found, e = .typeMismatch expected found := by
  cases v <;> cases h
  exact ⟨_, _, rfl⟩

/-- A check of the value on top. -/
theorem takes_pop_ofExcept {check : Value → Except Error α} (hempty : p .stackUnderflow)
    (hcheck : ∀ v e, check v = .error e → p e) : Takes p (do MonadExcept.ofExcept (check (← pop))) := by
  intro f
  have hpop := takes_pop hempty f
  cases h : pop f with
  | error e g =>
    rw [h] at hpop
    rw [bind_of_error h]
    exact hpop
  | ok v g =>
    rw [h] at hpop
    rw [bind_of_ok h]
    cases hv : check v with
    | ok a => exact hpop
    | error e => exact ⟨hpop, hcheck v e hv⟩

theorem takes_popInt (hempty : p .stackUnderflow) (htype : ∀ expected found, p (.typeMismatch expected found)) :
    Takes p popInt := by
  refine takes_pop_ofExcept hempty fun v e hv => ?_
  obtain ⟨expected, found, rfl⟩ := typeMismatch_of_asInt hv
  exact htype expected found

theorem takes_popReference (hempty : p .stackUnderflow)
    (htype : ∀ expected found, p (.typeMismatch expected found)) : Takes p popReference := by
  refine takes_pop_ofExcept hempty fun v e hv => ?_
  obtain ⟨expected, found, rfl⟩ := typeMismatch_of_asReference hv
  exact htype expected found

theorem takes_load (index : UInt16) (hnone : p (.invalidFrameAccess (.noLocal index))) : Takes p (load index) := by
  intro f
  have hget : (get : OnFrame Frame) f = .ok f f := rfl
  rw [load, bind_of_ok hget]
  cases f.locals[index.toNat]? with
  | some v => exact .refl f
  | none => exact ⟨.refl f, hnone⟩

/-! ### What is left to do -/

theorem ends_pure (a : α) : Ends p inst (pure a : OnFrame α) := fun f => ⟨.refl f, .inl rfl⟩

theorem ends_throw {e : Error} (h : p e) : Ends p inst (throw e : OnFrame α) := fun f => ⟨.refl f, h⟩

theorem ends_push (v : Value) : Ends p inst (push v) := fun _ => ⟨⟨rfl, rfl, rfl⟩, .inl rfl⟩

theorem ends_jump {target : Nat} (h : inst.operand = .branch target) : Ends p inst (jump target) :=
  fun _ => ⟨⟨rfl, rfl, rfl⟩, .inr h⟩

theorem ends_jumpIf (test : Bool) {target : Nat} (h : inst.operand = .branch target) :
    Ends p inst (if test then jump target else pure ()) := by
  cases test with
  | true => exact ends_jump h
  | false => exact ends_pure ()

theorem ends_store (index : UInt16) (v : Value) (hnone : p (.invalidFrameAccess (.noLocal index))) :
    Ends p inst (store index v) := by
  intro f
  by_cases h : index.toNat < f.locals.size
  · rw [store_eq, if_pos h]
    exact ⟨⟨rfl, rfl, Array.size_setIfInBounds⟩, .inl rfl⟩
  · rw [store_eq, if_neg h]
    exact ⟨.refl f, hnone⟩

/-! ### Operands of the wrong kind -/

theorem intOperand_error {e : Error} (h : intOperand inst = .error e) : inst.Misfits .int e := by
  unfold intOperand at h
  cases hoperand : inst.operand <;> rw [hoperand] at h <;> cases h <;>
    exact ⟨by rw [hoperand], by rw [hoperand]; simp [Operand.kind]⟩

theorem indexOperand_error {e : Error} (h : indexOperand inst = .error e) : inst.Misfits .index e := by
  unfold indexOperand at h
  cases hoperand : inst.operand <;> rw [hoperand] at h <;> cases h <;>
    exact ⟨by rw [hoperand], by rw [hoperand]; simp [Operand.kind]⟩

theorem slotOperand_error {e : Error} (h : slotOperand inst = .error e) : inst.Misfits .slot e := by
  unfold slotOperand at h
  cases hoperand : inst.operand <;> rw [hoperand] at h <;> cases h <;>
    exact ⟨by rw [hoperand], by rw [hoperand]; simp [Operand.kind]⟩

theorem incrementOperand_error {e : Error} (h : incrementOperand inst = .error e) : inst.Misfits .increment e := by
  unfold incrementOperand at h
  cases hoperand : inst.operand <;> rw [hoperand] at h <;> cases h <;>
    exact ⟨by rw [hoperand], by rw [hoperand]; simp [Operand.kind]⟩

theorem branchOperand_error {e : Error} (h : branchOperand inst = .error e) : inst.Misfits .branch e := by
  unfold branchOperand at h
  cases hoperand : inst.operand <;> rw [hoperand] at h <;> cases h <;>
    exact ⟨by rw [hoperand], by rw [hoperand]; simp [Operand.kind]⟩

theorem branchOperand_ok {target : Nat} (h : branchOperand inst = .ok target) :
    inst.operand = .branch target := by
  unfold branchOperand at h
  split at h <;> cases h
  assumption

end

/-! ### The instructions -/

section
variable {op : FrameOperation} {inst : Instruction Nat} {e : Error}

theorem raises_of_asInt {v : Value} (h : v.asInt = .error e) : op.Raises inst e := by
  obtain ⟨expected, found, rfl⟩ := typeMismatch_of_asInt h
  exact .typeMismatch expected found

theorem raises_of_asReference {v : Value} (h : v.asReference = .error e) : op.Raises inst e := by
  obtain ⟨expected, found, rfl⟩ := typeMismatch_of_asReference h
  exact .typeMismatch expected found

theorem raises_of_constantValue {pool : ConstantPool} {index : UInt16} (h : constantValue pool index = .error e) :
    op.Raises inst e := by
  unfold constantValue at h
  split at h
  · cases h
    exact .constant _
  · unfold ConstantPool.integer at h
    split at h <;> cases h
    exact .notInteger index

theorem takes_popInt_raises : Takes (op.Raises inst) popInt := takes_popInt .stackUnderflow .typeMismatch

theorem takes_popReference_raises : Takes (op.Raises inst) popReference :=
  takes_popReference .stackUnderflow .typeMismatch

end

/-- **One instruction within its frame.** -/
theorem perform_ends (op : FrameOperation) (inst : Instruction Nat) :
    Ends (op.Raises inst) inst (perform op inst) := by
  cases op with
  | nop => exact ends_pure ()
  | pushNull => exact ends_push _
  | pushInt => exact ends_bind_ofExcept (fun _ h => .misfit rfl (intOperand_error h)) fun _ _ => ends_push _
  | loadConstant =>
    refine ends_bind_ofExcept (fun _ h => .misfit rfl (indexOperand_error h)) fun _ _ => takes_get.bind fun _ => ?_
    exact ends_bind_ofExcept (fun _ => raises_of_constantValue) fun _ _ => ends_push _
  | loadInt =>
    refine ends_bind_ofExcept (fun _ h => .misfit rfl (slotOperand_error h)) fun i _ => ?_
    refine (takes_load i (.noLocal i)).bind fun _ => ?_
    exact ends_bind_ofExcept (fun _ => raises_of_asInt) fun _ _ => ends_push _
  | loadReference =>
    refine ends_bind_ofExcept (fun _ h => .misfit rfl (slotOperand_error h)) fun i _ => ?_
    refine (takes_load i (.noLocal i)).bind fun _ => ?_
    exact ends_bind_ofExcept (fun _ => raises_of_asReference) fun _ _ => ends_push _
  | storeInt =>
    refine takes_popInt_raises.bind fun _ => ?_
    exact ends_bind_ofExcept (fun _ h => .misfit rfl (slotOperand_error h)) fun i _ => ends_store i _ (.noLocal i)
  | storeReference =>
    refine takes_popReference_raises.bind fun _ => ?_
    exact ends_bind_ofExcept (fun _ h => .misfit rfl (slotOperand_error h)) fun i _ => ends_store i _ (.noLocal i)
  | pop => exact (takes_pop .stackUnderflow).bind fun _ => ends_pure ()
  | dup =>
    refine takes_get.bind fun f => ?_
    cases f.stack.head? with
    | none => exact ends_throw .stackUnderflow
    | some v => exact ends_push v
  | swap =>
    -- nothing fails once both operands are off the stack
    refine (takes_pop .stackUnderflow).bind fun _ => (takes_pop .stackUnderflow).bind fun _ => ?_
    exact fun _ => ⟨⟨rfl, rfl, rfl⟩, .inl rfl⟩
  | arithmetic op =>
    refine takes_popInt_raises.bind fun b => takes_popInt_raises.bind fun a => ?_
    cases op.result? a b with
    | none => exact ends_throw .divisionByZero
    | some v => exact ends_push _
  | negate => exact takes_popInt_raises.bind fun _ => ends_push _
  | increment =>
    refine ends_bind_ofExcept (fun _ h => .misfit rfl (incrementOperand_error h)) fun (i, _) _ => ?_
    refine (takes_load i (.noLocal i)).bind fun _ => ?_
    exact ends_bind_ofExcept (fun _ => raises_of_asInt) fun _ _ => ends_store i _ (.noLocal i)
  | branchZero test =>
    refine ends_bind_ofExcept (fun _ h => .misfit rfl (branchOperand_error h)) fun _ htarget => ?_
    exact takes_popInt_raises.bind fun _ => ends_jumpIf _ (branchOperand_ok htarget)
  | branchCompare test =>
    refine ends_bind_ofExcept (fun _ h => .misfit rfl (branchOperand_error h)) fun _ htarget => ?_
    exact takes_popInt_raises.bind fun _ => takes_popInt_raises.bind fun _ => ends_jumpIf _ (branchOperand_ok htarget)
  | branchNull expected =>
    refine ends_bind_ofExcept (fun _ h => .misfit rfl (branchOperand_error h)) fun _ htarget => ?_
    exact takes_popReference_raises.bind fun _ => ends_jumpIf _ (branchOperand_ok htarget)
  | goto =>
    refine ends_bind_ofExcept (fun _ h => .misfit rfl (branchOperand_error h)) fun _ htarget => ?_
    exact ends_jump (branchOperand_ok htarget)

end Frame

end Jvm
