import Jvm.Proofs.Machine.Effect

/-!
# Steps within the running frame

Most instructions work on the running frame alone. A machine that is about to execute one steps to
what `Frame.perform` makes of that frame, or fails with what it fails with (`stepsTo_of_perform`,
`failsWith_of_perform`). What it makes of a frame whose operands are there is said instruction by
instruction.
-/

namespace Jvm

/-! ## The frame -/

namespace Frame
variable {f : Frame} {inst : Instruction Nat} {v : Value} {i : Int32} {a b : Int32} {index : UInt16} {target : Nat}
  {rest : List Value}

theorem pop_of_stack (h : f.stack = v :: rest) : pop f = .ok v { f with stack := rest } := by
  simp only [pop, h]

theorem popInt_of_stack (h : f.stack = .int i :: rest) : popInt f = .ok i { f with stack := rest } := by
  rw [popInt_eq, h]
  rfl

theorem load_of_locals (h : f.locals[index.toNat]? = some v) : load index f = .ok v f := by
  rw [load, get_bind, h]
  rfl

theorem perform_pushInt (h : inst.operand = .int i) : perform .pushInt inst f = .ok () (f.pushed (.int i)) := by
  have hoperand : intOperand inst = .ok i := by rw [intOperand, h]
  rw [perform, hoperand]
  rfl

theorem perform_loadConstant (h : inst.operand = .index index) (hconstant : constantValue f.owner.pool index = .ok i) :
    perform .loadConstant inst f = .ok () (f.pushed (.int i)) := by
  have hoperand : indexOperand inst = .ok index := by rw [indexOperand, h]
  rw [perform, hoperand]
  change (MonadExcept.ofExcept (constantValue f.owner.pool index) >>= fun i => push (.int i)) f = _
  rw [hconstant]
  rfl

theorem perform_loadInt (hoperand : inst.operand = .slot index) (hlocal : f.locals[index.toNat]? = some (.int a)) :
    perform .loadInt inst f = .ok () (f.pushed (.int a)) := by
  have hinst : slotOperand inst = .ok index := by rw [slotOperand, hoperand]
  rw [perform, hinst]
  change (load index >>= fun v => _) f = _
  rw [bind_of_ok (load_of_locals hlocal)]
  rfl

theorem perform_storeInt (hoperand : inst.operand = .slot index) (h : f.stack = .int a :: rest)
    (hslot : index.toNat < f.locals.size) :
    perform .storeInt inst f =
      .ok () { f with stack := rest, locals := f.locals.setIfInBounds index.toNat (.int a) } := by
  have hinst : slotOperand inst = .ok index := by rw [slotOperand, hoperand]
  rw [perform, bind_of_ok (popInt_of_stack h), hinst]
  change store index (.int a) { f with stack := rest } = _
  rw [store_eq, if_pos (show index.toNat < ({ f with stack := rest } : Frame).locals.size from hslot)]

theorem perform_goto (hoperand : inst.operand = .branch target) :
    perform .goto inst f = .ok () { f with pc := target } := by
  have hinst : branchOperand inst = .ok target := by rw [branchOperand, hoperand]
  rw [perform, hinst]
  rfl

theorem perform_pop (h : f.stack = v :: rest) : perform .pop inst f = .ok () { f with stack := rest } := by
  rw [perform, bind_of_ok (pop_of_stack h)]
  rfl

theorem perform_arithmetic (op : Arithmetic) (h : f.stack = .int b :: .int a :: rest) :
    perform (.arithmetic op) inst f =
      match op.result? a b with
      | some result => .ok () { f with stack := .int result :: rest }
      | none => .error (.arithmetic "/ by zero") { f with stack := rest } := by
  rw [perform, bind_of_ok (popInt_of_stack h), bind_of_ok (popInt_of_stack rfl)]
  cases op.result? a b <;> rfl

theorem perform_negate (h : f.stack = .int a :: rest) :
    perform .negate inst f = .ok () { f with stack := .int (-a) :: rest } := by
  rw [perform, bind_of_ok (popInt_of_stack h)]
  rfl

theorem perform_increment (hoperand : inst.operand = .increment index b)
    (hlocal : f.locals[index.toNat]? = some (.int a)) :
    perform .increment inst f =
      .ok () { f with locals := f.locals.setIfInBounds index.toNat (.int (a + b)) } := by
  have hinst : incrementOperand inst = .ok (index, b) := by rw [incrementOperand, hoperand]
  have hlt := (Array.getElem?_eq_some_iff.1 hlocal).1
  rw [perform, hinst]
  change (load index >>= fun v => _) f = _
  rw [bind_of_ok (load_of_locals hlocal)]
  change store index (.int (a + b)) f = _
  rw [store_eq, if_pos hlt]

theorem jumpIf_eq (test : Bool) (target : Nat) (f : Frame) :
    (if test then jump target else pure () : OnFrame Unit) f =
      .ok () { f with pc := if test then target else f.pc } := by
  cases test <;> rfl

theorem perform_branchZero (test : Comparison) (hoperand : inst.operand = .branch target)
    (h : f.stack = .int a :: rest) :
    perform (.branchZero test) inst f =
      .ok () { f with pc := if test.holds a 0 then target else f.pc, stack := rest } := by
  have hinst : branchOperand inst = .ok target := by rw [branchOperand, hoperand]
  rw [perform, hinst]
  change (popInt >>= fun a => _) f = _
  rw [bind_of_ok (popInt_of_stack h)]
  exact jumpIf_eq _ target _

theorem perform_branchCompare (test : Comparison) (hoperand : inst.operand = .branch target)
    (h : f.stack = .int b :: .int a :: rest) :
    perform (.branchCompare test) inst f =
      .ok () { f with pc := if test.holds a b then target else f.pc, stack := rest } := by
  have hinst : branchOperand inst = .ok target := by rw [branchOperand, hoperand]
  rw [perform, hinst]
  change (popInt >>= fun b => _) f = _
  rw [bind_of_ok (popInt_of_stack h), bind_of_ok (popInt_of_stack rfl)]
  exact jumpIf_eq _ target _

end Frame

/-! ## The machine -/

namespace Machine

/-- The running frame is `f`, and it is about to execute `inst`. -/
structure At (m : Machine) (f : Frame) (below : List Frame) (inst : Instruction Nat) : Prop where
  frames : m.calls.frames = f :: below
  fetch : f.fetch? = .ok inst

/-- The next step leads to these frames. Nothing else changes but the count of steps and the log. -/
def StepsTo (files : FileSystem) (m : Machine) (frames : List Frame) : Prop :=
  ∃ log, step files m = .ok true { m.put m.loader m.streams frames log with executed := m.executed + 1 }

/-- The next step fails and leaves these frames. Nothing else changes but the log. -/
def FailsWith (files : FileSystem) (m : Machine) (error : Error) (frames : List Frame) : Prop :=
  ∃ log, step files m = .error (.failed error) (m.put m.loader m.streams frames log)

section
variable {files : FileSystem} {m : Machine} {f f' : Frame} {below : List Frame} {inst : Instruction Nat}
  {op : FrameOperation}

theorem outcome_of_within (hop : inst.opcode.operation = .within op) (natives : NativeTable) (pc : Nat) (f : Frame)
    (loader : Loader) (streams : Streams) :
    outcome files natives inst pc f loader streams =
      ⟨Outcome.within (Frame.perform op inst) (fun _ f => .stay f) f, loader, streams⟩ := by
  rw [outcome, hop]

theorem stepsTo_of_perform (h : m.At f below inst) (hop : inst.opcode.operation = .within op)
    (hperform : Frame.perform op inst { f with pc := f.pc + 1 } = .ok () f') : m.StepsTo files (f' :: below) := by
  obtain ⟨log, hstep⟩ := step_eq h.frames h.fetch files
  rw [outcome_of_within hop, Outcome.within, hperform] at hstep
  exact ⟨log, hstep⟩

theorem failsWith_of_perform {error : Error} (h : m.At f below inst) (hop : inst.opcode.operation = .within op)
    (hperform : Frame.perform op inst { f with pc := f.pc + 1 } = .error error f') :
    m.FailsWith files error (f' :: below) := by
  obtain ⟨log, hstep⟩ := step_eq h.frames h.fetch files
  rw [outcome_of_within hop, Outcome.within, hperform] at hstep
  exact ⟨log, hstep⟩

end

end Machine

end Jvm
