import Jvm.Proofs.Code.Format
import Jvm.Proofs.Frame.InStep
import Jvm.Proofs.Machine.Effect

/-!
# Frames that differ in their counters

Two machines that count program positions differently have frames that agree in all but the counter,
and which counters belong together is a relation `corr`. An instruction keeps such frames together as
long as the targets of its branches belong together (`tandem_perform`).
-/

namespace Jvm

/-- `g` is `f` with another counter, which belongs to that of `f`. -/
structure Frame.Twin (corr : Nat → Nat → Prop) (f g : Frame) : Prop where
  same : g = { f with pc := g.pc }
  pc : corr f.pc g.pc

/-- The two instructions differ at most in where they branch to, and there they belong together. -/
inductive Instruction.Twin (corr : Nat → Nat → Prop) : Instruction Nat → Instruction Nat → Prop
  | same {inst inst' : Instruction Nat} : inst'.opcode = inst.opcode → inst'.operand = inst.operand →
      (∀ target, inst.operand ≠ .branch target) → Twin corr inst inst'
  | branch {inst inst' : Instruction Nat} {target target' : Nat} : inst'.opcode = inst.opcode →
      inst.opcode ∈ Format.branchOpcodes → inst.operand = .branch target → inst'.operand = .branch target' →
      corr target target' → Twin corr inst inst'

theorem Instruction.Twin.imp {corr corr' : Nat → Nat → Prop} {inst inst' : Instruction Nat}
    (h : inst.Twin corr inst') (hcorr : ∀ i p, corr i p → corr' i p) : inst.Twin corr' inst' := by
  cases h with
  | same hopcode hoperand hnone => exact .same hopcode hoperand hnone
  | branch hopcode hmem hoperand hoperand' htarget =>
    exact .branch hopcode hmem hoperand hoperand' (hcorr _ _ htarget)

/-- An operation that can go on elsewhere than at the next instruction. -/
def FrameOperation.isBranch : FrameOperation → Bool
  | .branchZero _ | .branchCompare _ | .branchNull _ | .goto => true
  | _ => false

theorem FrameOperation.needs_of_isBranch {op : FrameOperation} (h : op.isBranch = true) : op.needs = some .branch := by
  cases op with
  | branchZero | branchCompare | branchNull | goto => rfl
  | _ => cases h

theorem Opcode.operation_of_branch {op : Opcode} (h : op ∈ Format.branchOpcodes) :
    ∃ act : FrameOperation, op.operation = .within act ∧ act.isBranch = true := by
  fin_cases h <;> exact ⟨_, rfl, rfl⟩

namespace Frame
variable {corr : Nat → Nat → Prop} {α β : Type}

theorem Twin.of_pc {f : Frame} {pc : Nat} (h : corr f.pc pc) : Twin corr f { f with pc } := ⟨rfl, h⟩

/-- Both computations end alike, with frames that belong together. -/
def Agrees (corr : Nat → Nat → Prop) : EStateM.Result Error Frame α → EStateM.Result Error Frame α → Prop
  | .ok a f, .ok b g => b = a ∧ Twin corr f g
  | .error e f, .error e' g => e' = e ∧ Twin corr f g
  | _, _ => False

/-- The computations end alike on frames that belong together. -/
def Tandem (corr : Nat → Nat → Prop) (act act' : OnFrame α) : Prop :=
  ∀ f g, Twin corr f g → Agrees corr (act f) (act' g)

/-- Twins differ in nothing that an instruction looks at. -/
theorem parallel_twin : Parallel corr (Twin corr) where
  pool h := by rw [h.same]
  stack h := by rw [h.same]
  locals h := by rw [h.same]
  withStack h _ := ⟨by rw [h.same], h.pc⟩
  withLocals h _ := ⟨by rw [h.same], h.pc⟩
  withPc h _ _ hpc := ⟨by rw [h.same], hpc⟩

theorem tandem_of_inStep {act act' : OnFrame α} (h : InStep (Twin corr) act act') : Tandem corr act act' := by
  intro f g hfg
  have hend := h f g hfg
  generalize act f = r, act' g = r' at hend
  cases hend with
  | ok a hfg' => exact ⟨rfl, hfg'⟩
  | error e hfg' => exact ⟨rfl, hfg'⟩

/-! ## Instructions within a frame -/

theorem perform_congr {op : FrameOperation} {inst inst' : Instruction Nat} (hopcode : inst'.opcode = inst.opcode)
    (hoperand : inst'.operand = inst.operand) : perform op inst' = perform op inst := by
  obtain ⟨offset, opcode, operand⟩ := inst
  obtain ⟨offset', opcode', operand'⟩ := inst'
  obtain rfl : opcode' = opcode := hopcode
  obtain rfl : operand' = operand := hoperand
  cases op <;> rfl

/-- **Performing an instruction keeps twins twins.** -/
theorem tandem_perform {op : FrameOperation} {inst inst' : Instruction Nat}
    (hop : inst.opcode.operation = .within op) (h : inst.Twin corr inst') :
    Tandem corr (perform op inst) (perform op inst') := by
  refine tandem_of_inStep ?_
  cases h with
  | same hopcode hoperand hnone =>
    rw [perform_congr hopcode hoperand]
    by_cases hbranch : op.needs = some .branch
    · -- A branch without a target fails before it looks at the frame.
      have hfail : branchOperand inst = .error (.invalidOperand inst.opcode inst.operand) := by
        unfold branchOperand
        split
        · exact absurd ‹_› (hnone _)
        · rfl
      exact parallel_twin.perform_of_branch hbranch (by rw [hfail]; exact .error _)
    · exact parallel_twin.perform_of_straight hbranch inst
  | @branch target target' hopcode hmem hoperand hoperand' htarget =>
    obtain ⟨act, hact, hbranch⟩ := Opcode.operation_of_branch hmem
    obtain rfl : act = op := Operation.within.inj (hact.symm.trans hop)
    refine parallel_twin.perform_of_branch (FrameOperation.needs_of_isBranch hbranch) ?_
    rw [branchOperand, branchOperand, hoperand, hoperand']
    exact .ok htarget

end Frame

/-! ## Whole instructions -/

/-- Effects of an instruction on frames that differ in their counters. The counters before the
instruction belong together by `before`, those after it by `after`. -/
inductive Effect.Twin (before after : Nat → Nat → Prop) : Effect → Effect → Prop
  | stay {f g : Frame} : f.Twin after g → Twin before after (.stay f) (.stay g)
  | call {f g : Frame} (callee : Frame) : f.Twin after g → Twin before after (.call f callee) (.call g callee)
  | leave : Twin before after .leave .leave
  | give (v : Value) : Twin before after (.give v) (.give v)
  | fail {f g : Frame} (e : Error) : f.Twin after g → Twin before after (.fail e f) (.fail e g)
  | unsupported {f g : Frame} {pc pc' : Nat} (opcode : Opcode) (owner method : String) : f.Twin after g →
      before pc pc' →
      Twin before after (.fail (.unsupportedOpcode opcode owner method pc) f)
        (.fail (.unsupportedOpcode opcode owner method pc') g)
  | hang : Twin before after .hang .hang

structure Outcome.Twin (before after : Nat → Nat → Prop) (o o' : Outcome) : Prop where
  effect : o.effect.Twin before after o'.effect
  loader : o'.loader = o.loader
  streams : o'.streams = o.streams

section
variable {before after : Nat → Nat → Prop} {inst inst' : Instruction Nat} {f g : Frame}

theorem Instruction.Twin.opcode (h : inst.Twin after inst') : inst'.opcode = inst.opcode := by
  cases h <;> assumption

/-- Only branches differ. -/
theorem Instruction.Twin.operand_of_operation (h : inst.Twin after inst')
    (hop : ∀ act, inst.opcode.operation ≠ .within act) : inst'.operand = inst.operand := by
  cases h with
  | same _ hoperand => exact hoperand
  | branch _ hmem =>
    obtain ⟨act, hact, -⟩ := Opcode.operation_of_branch hmem
    exact absurd hact (hop act)

theorem Frame.Twin.dropped (h : f.Twin after g) (n : Nat) : (f.dropped n).Twin after (g.dropped n) := by
  obtain ⟨hsame, hpc⟩ := h
  rw [hsame]
  exact .of_pc hpc

theorem Frame.Twin.pushed (h : f.Twin after g) (v : Value) : (f.pushed v).Twin after (g.pushed v) := by
  obtain ⟨hsame, hpc⟩ := h
  rw [hsame]
  exact .of_pc hpc

theorem Frame.Twin.owner (h : f.Twin after g) : g.owner = f.owner := by rw [h.same]

theorem Frame.Twin.method (h : f.Twin after g) : g.method = f.method := by rw [h.same]

theorem Frame.Twin.stack (h : f.Twin after g) : g.stack = f.stack := by rw [h.same]

theorem Frame.callSite_congr (hoperand : inst'.operand = inst.operand) (hopcode : inst'.opcode = inst.opcode)
    (hfg : f.Twin after g) : g.callSite inst' = f.callSite inst := by
  simp only [callSite, indexOperand, hoperand, hopcode, hfg.owner]

theorem Frame.staticField_congr (hoperand : inst'.operand = inst.operand) (hopcode : inst'.opcode = inst.opcode)
    (hfg : f.Twin after g) (natives : NativeTable) : g.staticField natives inst' = f.staticField natives inst := by
  simp only [staticField, indexOperand, hoperand, hopcode, hfg.owner]

theorem Outcome.twin_native (hfg : f.Twin after g) (action : NativeAction) (call : NativeCall) (loader : Loader)
    (streams : Streams) :
    (native action call f loader streams).Twin before after (native action call g loader streams) := by
  unfold native
  cases action call streams with
  | error e streams => exact ⟨.fail e hfg, rfl, rfl⟩
  | ok result streams =>
    cases result with
    | none => exact ⟨.stay hfg, rfl, rfl⟩
    | some v => exact ⟨.stay (hfg.pushed v), rfl, rfl⟩

theorem Outcome.twin_bytecode (hfg : f.Twin after g) (files : FileSystem) (target : MemberRef) (loader : Loader)
    (streams : Streams) :
    (bytecode files target f loader streams).Twin before after (bytecode files target g loader streams) := by
  unfold bytecode
  simp only [hfg.stack, Frame.operands]
  cases (loader.findMethod files target).result with
  | error stop =>
    cases stop with
    | failed e => exact ⟨.fail e hfg, rfl, rfl⟩
    | unfinished => exact ⟨.hang, rfl, rfl⟩
  | ok found =>
    obtain ⟨owner, method⟩ := found
    simp only
    split
    · exact ⟨.fail _ hfg, rfl, rfl⟩
    · split
      · exact ⟨.fail _ hfg, rfl, rfl⟩
      · exact ⟨.call _ (hfg.dropped _), rfl, rfl⟩

theorem Outcome.twin_invokeStatic (hoperand : inst'.operand = inst.operand) (hopcode : inst'.opcode = inst.opcode)
    (hfg : f.Twin after g) (files : FileSystem) (natives : NativeTable) (loader : Loader) (streams : Streams) :
    (invokeStatic files natives inst f loader streams).Twin before after
      (invokeStatic files natives inst' g loader streams) := by
  unfold invokeStatic
  rw [Frame.callSite_congr hoperand hopcode hfg]
  cases f.callSite inst with
  | error e => exact ⟨.fail e hfg, rfl, rfl⟩
  | ok site =>
    obtain ⟨target, types⟩ := site
    simp only [hfg.stack, Frame.operands]
    cases natives.method? .static target.owner target.name types.length with
    | none => exact twin_bytecode hfg files target loader streams
    | some action =>
      simp only
      split
      · exact ⟨.fail _ hfg, rfl, rfl⟩
      · exact twin_native (hfg.dropped _) _ _ _ _

theorem Outcome.twin_invokeVirtual (hoperand : inst'.operand = inst.operand) (hopcode : inst'.opcode = inst.opcode)
    (hfg : f.Twin after g) (natives : NativeTable) (loader : Loader) (streams : Streams) :
    (invokeVirtual natives inst f loader streams).Twin before after
      (invokeVirtual natives inst' g loader streams) := by
  unfold invokeVirtual
  rw [Frame.callSite_congr hoperand hopcode hfg]
  cases f.callSite inst with
  | error e => exact ⟨.fail e hfg, rfl, rfl⟩
  | ok site =>
    obtain ⟨target, types⟩ := site
    simp only [hfg.stack, Frame.operands]
    cases natives.method? .virtual target.owner target.name types.length with
    | none => exact ⟨.fail _ hfg, rfl, rfl⟩
    | some action =>
      simp only
      split
      · exact ⟨.fail _ hfg, rfl, rfl⟩
      · cases f.stack.drop types.length with
        | nil => exact ⟨.fail _ (hfg.dropped _), rfl, rfl⟩
        | cons receiver rest => exact twin_native (hfg.dropped _) _ _ _ _

/-- A computation that ends alike has effects that are alike. -/
theorem Outcome.twin_within {α : Type} {act act' : OnFrame α} {next : α → Frame → Effect}
    (hact : Frame.Tandem after act act') (hfg : f.Twin after g)
    (hnext : ∀ a f g, f.Twin after g → (next a f).Twin before after (next a g)) :
    (within act next f).Twin before after (within act' next g) := by
  have h := hact f g hfg
  unfold within
  cases hf : act f with
  | ok a f' =>
    cases hg : act' g with
    | ok b g' =>
      rw [hf, hg] at h
      obtain ⟨rfl, hfg'⟩ := h
      exact hnext b f' g' hfg'
    | error e g' =>
      rw [hf, hg] at h
      cases h
  | error e f' =>
    cases hg : act' g with
    | ok b g' =>
      rw [hf, hg] at h
      cases h
    | error e' g' =>
      rw [hf, hg] at h
      obtain ⟨rfl, hfg'⟩ := h
      exact .fail e' hfg'

/-- **An instruction has the same effect on frames that differ in their counters.** -/
theorem outcome_twin (hinst : inst.Twin after inst') (hfg : f.Twin after g) {pc pc' : Nat} (hpc : before pc pc')
    (files : FileSystem) (natives : NativeTable) (loader : Loader) (streams : Streams) :
    (outcome files natives inst pc f loader streams).Twin before after
      (outcome files natives inst' pc' g loader streams) := by
  have hopcode := hinst.opcode
  unfold outcome
  rw [hopcode]
  cases hop : inst.opcode.operation with
  | within op =>
    exact ⟨Outcome.twin_within (Frame.tandem_perform hop hinst) hfg fun _ _ _ h => .stay h, rfl, rfl⟩
  | getStatic =>
    have hoperand := hinst.operand_of_operation (by simp [hop])
    rw [Frame.staticField_congr hoperand hopcode hfg]
    cases f.staticField natives inst with
    | ok v => exact ⟨.stay (hfg.pushed v), rfl, rfl⟩
    | error e => exact ⟨.fail e hfg, rfl, rfl⟩
  | invokeStatic =>
    have hoperand := hinst.operand_of_operation (by simp [hop])
    exact Outcome.twin_invokeStatic hoperand hopcode hfg files natives loader streams
  | invokeVirtual =>
    have hoperand := hinst.operand_of_operation (by simp [hop])
    exact Outcome.twin_invokeVirtual hoperand hopcode hfg natives loader streams
  | returnVoid => exact ⟨.leave, rfl, rfl⟩
  | returnInt =>
    exact ⟨Outcome.twin_within (Frame.tandem_of_inStep Frame.parallel_twin.popInt) hfg fun v _ _ _ => .give (.int v), rfl, rfl⟩
  | returnReference =>
    exact ⟨Outcome.twin_within (Frame.tandem_of_inStep Frame.parallel_twin.popReference) hfg fun v _ _ _ => .give v, rfl, rfl⟩
  | unsupported =>
    rw [hfg.owner, hfg.method]
    exact ⟨.unsupported _ _ _ hfg hpc, rfl, rfl⟩

end

end Jvm
