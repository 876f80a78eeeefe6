import Jvm.Proofs.Frame.InStep
import Jvm.Proofs.Loader.Recoded
import Jvm.Proofs.Machine.Surroundings

/-!
# All encodings of a program run alike

Loads, stores and pushes of constants have short and long encodings, and a program may be written with
any of them. Two machines whose frames and loaded classes are versions of each other in this respect,
`Machine.Recoded`, take each step alike: their frames keep the same operands, locals and counters, they
write the same, count the same and fail with the same errors. What they log may differ, since a log names
opcodes.

One instruction is `outcome_recoded`, a step `step_recoded`, a run `run_recoded`, a history of requests
`afterAll_recoded`. Main theorem `encodings_execute_alike`.
-/

namespace Jvm

/-! ## Instructions -/

/-- Equivalent instructions of decoded code: the operand is of the kind that the operation needs. -/
structure Instruction.Recoded (inst inst' : Instruction Nat) : Prop extends inst.Equivalent inst' where
  fits : ∀ kind, inst.opcode.operation.needs = some kind → inst.operand.kind = kind

/-- What the opcodes of the families do. -/
theorem Opcode.operation_of_families {family : List Opcode} (h : family ∈ families) {op op' : Opcode} (hop : op ∈ family)
    (hop' : op' ∈ family) : op'.operation = op.operation ∧ ∃ act, op.operation = .within act := by
  have hsame : ∀ family ∈ families, ∀ op ∈ family, ∀ op' ∈ family, op'.operation = op.operation := by decide
  have hwithin : ∀ family ∈ families, ∀ op ∈ family, op.operation ∈ ([.pushInt, .loadConstant, .loadInt, .loadReference,
      .storeInt, .storeReference] : List FrameOperation).map .within := by decide
  obtain ⟨act, -, hact⟩ := List.mem_map.1 (hwithin family h op hop)
  exact ⟨hsame family h op hop op' hop', act, hact.symm⟩

section
variable {inst inst' : Instruction Nat}

theorem Instruction.Equivalent.operation_eq (h : inst.Equivalent inst') :
    inst'.opcode.operation = inst.opcode.operation := by
  rcases h.opcode with hsame | ⟨family, hfamily, hop, hop'⟩
  · rw [hsame]
  · exact (Opcode.operation_of_families hfamily hop hop').1

/-- Only operations within a frame have opcodes that differ. -/
theorem Instruction.Equivalent.opcode_eq (h : inst.Equivalent inst')
    (hop : ∀ act, inst.opcode.operation ≠ .within act) : inst'.opcode = inst.opcode := by
  rcases h.opcode with hsame | ⟨family, hfamily, hmem, hmem'⟩
  · exact hsame.symm
  · obtain ⟨-, act, hact⟩ := Opcode.operation_of_families hfamily hmem hmem'
    exact absurd hact (hop act)

namespace Frame

/-- An operand of the kind that is needed is found whatever the opcode. -/
theorem operands_congr (h : inst'.operand = inst.operand) :
    (inst.operand.kind = .int → intOperand inst' = intOperand inst) ∧
    (inst.operand.kind = .index → indexOperand inst' = indexOperand inst) ∧
    (inst.operand.kind = .slot → slotOperand inst' = slotOperand inst) ∧
    (inst.operand.kind = .increment → incrementOperand inst' = incrementOperand inst) ∧
    (inst.operand.kind = .branch → branchOperand inst' = branchOperand inst) := by
  unfold intOperand indexOperand slotOperand incrementOperand branchOperand
  rw [h]
  cases inst.operand <;> simp [Operand.kind]

theorem perform_eq_of_fits {op : FrameOperation} (hoperand : inst'.operand = inst.operand)
    (hfits : ∀ kind, op.needs = some kind → inst.operand.kind = kind) : perform op inst' = perform op inst := by
  obtain ⟨hint, hindex, hslot, hincrement, hbranch⟩ := operands_congr hoperand
  cases op with
  | pushInt => rw [perform, perform, hint (hfits _ rfl)]
  | loadConstant => rw [perform, perform, hindex (hfits _ rfl)]
  | loadInt | loadReference | storeInt | storeReference => rw [perform, perform, hslot (hfits _ rfl)]
  | increment => rw [perform, perform, hincrement (hfits _ rfl)]
  | branchZero | branchCompare | branchNull | goto => rw [perform, perform, hbranch (hfits _ rfl)]
  | _ => rfl

end Frame

end

/-! ## Frames -/

/-- Invocations of versions of one method that have come equally far. -/
structure Frame.Recoded (f g : Frame) : Prop where
  owner : f.owner.Recoded g.owner
  method : f.method.Recoded g.method
  pc : g.pc = f.pc
  stack : g.stack = f.stack
  locals : g.locals = f.locals

namespace Frame

theorem parallel_recoded : Parallel Eq Recoded where
  pool h := h.owner.pool
  stack h := h.stack
  locals h := h.locals
  withStack h _ := { h with stack := rfl }
  withLocals h _ := { h with locals := rfl }
  withPc h _ _ hpc := { h with pc := hpc.symm }

theorem recoded_ofCall {owner owner' : Class} {method method' : Method} (howner : owner.Recoded owner')
    (hmethod : method.Recoded method') (arguments : List Value) :
    (ofCall owner method arguments).Recoded (ofCall owner' method' arguments) where
  owner := howner
  method := hmethod
  pc := rfl
  stack := rfl
  locals := by simp only [ofCall, hmethod.maxLocals]

section
variable {f g : Frame} {inst inst' : Instruction Nat}

theorem Recoded.pushed (h : f.Recoded g) (v : Value) : (f.pushed v).Recoded (g.pushed v) :=
  { h with stack := congrArg (v :: ·) h.stack }

theorem Recoded.dropped (h : f.Recoded g) (n : Nat) : (f.dropped n).Recoded (g.dropped n) :=
  { h with stack := congrArg (·.drop n) h.stack }

/-- Versions of a method have equivalent instructions at the same place. -/
theorem Recoded.fetch? (h : f.Recoded g) : Matches Instruction.Recoded f.fetch? g.fetch? := by
  have hcode := h.method.code
  have hdecoded := h.method.decoded
  unfold Method.Decoded at hdecoded
  unfold Frame.fetch?
  rw [h.owner.name, h.method.name, h.pc]
  generalize f.method.code = code, g.method.code = code' at hcode hdecoded ⊢
  cases hcode with
  | none => exact .error _
  | @some code code' hcode =>
    obtain ⟨bytes, hdecode⟩ := hdecoded code rfl
    have hinst := hcode.getElem? f.pc
    simp only
    generalize hi : code[f.pc]? = found, code'[f.pc]? = found' at hinst ⊢
    cases hinst with
    | none => exact .error _
    | some hequivalent =>
      exact .ok ⟨hequivalent, fun kind => Code.kind_of_decode hdecode (Array.mem_of_getElem? hi)⟩

/-- An instruction within a frame keeps the frames together. -/
theorem inStep_recoded {op : FrameOperation} (hinst : inst.Recoded inst') (hop : inst.opcode.operation = .within op) :
    InStep Recoded (perform op inst) (perform op inst') := by
  have hfits : ∀ kind, op.needs = some kind → inst.operand.kind = kind := fun kind hneeds =>
    hinst.fits kind (by rw [hop]; exact hneeds)
  rw [perform_eq_of_fits hinst.operand.symm hfits]
  by_cases hbranch : op.needs = some .branch
  · exact parallel_recoded.perform_of_branch hbranch (.refl (fun _ => rfl) _)
  · exact parallel_recoded.perform_of_straight hbranch inst

/-- An index into the constants names the same. -/
theorem Recoded.callSite_eq (h : f.Recoded g) (hindex : indexOperand inst' = indexOperand inst) :
    g.callSite inst' = f.callSite inst := by
  rw [callSite, callSite, hindex, h.owner.pool]

theorem Recoded.staticField_eq (h : f.Recoded g) (hindex : indexOperand inst' = indexOperand inst)
    (natives : NativeTable) : g.staticField natives inst' = f.staticField natives inst := by
  rw [staticField, staticField, hindex, h.owner.pool]

theorem Recoded.operands_eq (h : f.Recoded g) (n : Nat) : g.operands n = f.operands n := by
  rw [operands, operands, h.stack]

end

end Frame

/-! ## Whole instructions -/

/-- The effects are the same but for the versions of the frames. -/
inductive Effect.Recoded : Effect → Effect → Prop
  | stay {f g : Frame} : f.Recoded g → Recoded (.stay f) (.stay g)
  | call {f g callee callee' : Frame} : f.Recoded g → callee.Recoded callee' →
      Recoded (.call f callee) (.call g callee')
  | leave : Recoded .leave .leave
  | give (v : Value) : Recoded (.give v) (.give v)
  | fail (e : Error) {f g : Frame} : f.Recoded g → Recoded (.fail e f) (.fail e g)

/-- Both instructions end, with the same output, or neither does. -/
inductive Outcome.Recoded : Outcome → Outcome → Prop
  | ends {effect effect' : Effect} {loader loader' : Loader} (streams : Streams) : effect.Recoded effect' →
      loader.Recoded loader' → Recoded ⟨effect, loader, streams⟩ ⟨effect', loader', streams⟩
  | hangs (loader loader' : Loader) (streams streams' : Streams) :
      Recoded ⟨.hang, loader, streams⟩ ⟨.hang, loader', streams'⟩

namespace Outcome
variable {files files' : FileSystem} {inst inst' : Instruction Nat} {f g : Frame} {loader loader' : Loader}

theorem native_recoded (hfg : f.Recoded g) (hl : loader.Recoded loader') (action : NativeAction) (call : NativeCall)
    (streams : Streams) : (native action call f loader streams).Recoded (native action call g loader' streams) := by
  unfold native
  cases action call streams with
  | error e streams => exact .ends streams (.fail e hfg) hl
  | ok result streams =>
    cases result with
    | none => exact .ends streams (.stay hfg) hl
    | some v => exact .ends streams (.stay (hfg.pushed v)) hl

/-- A call finds versions of one method. -/
theorem bytecode_recoded (hfiles : files.Recoded files') (hfg : f.Recoded g) (hl : loader.Recoded loader')
    (target : MemberRef) (streams : Streams) :
    (bytecode files target f loader streams).Recoded (bytecode files' target g loader' streams) := by
  unfold bytecode
  simp only [hfg.stack, hfg.operands_eq]
  rcases Loader.findMethod_recoded hfiles hl target with ⟨hhang, hhang'⟩ | ⟨hresult, hloader⟩
  · rw [hhang, hhang']
    exact .hangs _ _ _ _
  · generalize (loader.findMethod files target).result = result,
      (loader'.findMethod files' target).result = result' at hresult
    cases hresult with
    | error stop =>
      cases stop with
      | failed e => exact .ends streams (.fail e hfg) hloader
      | unfinished => exact .hangs _ _ _ _
    | @ok found found' hfound =>
      obtain ⟨owner, method⟩ := found
      obtain ⟨owner', method'⟩ := found'
      obtain ⟨howner, hmethod⟩ := hfound
      simp only at howner hmethod
      simp only [howner.name, hmethod.name, hmethod.descriptor, hmethod.isStatic, hmethod.isNone_code,
        hmethod.argumentCount]
      split
      · exact .ends streams (.fail _ hfg) hloader
      · split
        · exact .ends streams (.fail _ hfg) hloader
        · exact .ends streams (.call (hfg.dropped _) (Frame.recoded_ofCall howner hmethod _)) hloader

theorem invokeStatic_recoded (hfiles : files.Recoded files') (hfg : f.Recoded g) (hl : loader.Recoded loader')
    (hindex : Frame.indexOperand inst' = Frame.indexOperand inst) (natives : NativeTable) (streams : Streams) :
    (invokeStatic files natives inst f loader streams).Recoded
      (invokeStatic files' natives inst' g loader' streams) := by
  unfold invokeStatic
  rw [hfg.callSite_eq hindex]
  cases f.callSite inst with
  | error e => exact .ends streams (.fail e hfg) hl
  | ok site =>
    obtain ⟨target, types⟩ := site
    simp only [hfg.stack, hfg.operands_eq]
    cases natives.method? .static target.owner target.name types.length with
    | none => exact bytecode_recoded hfiles hfg hl target streams
    | some action =>
      simp only
      split
      · exact .ends streams (.fail _ hfg) hl
      · exact native_recoded (hfg.dropped _) hl _ _ streams

theorem invokeVirtual_recoded (hfg : f.Recoded g) (hl : loader.Recoded loader')
    (hindex : Frame.indexOperand inst' = Frame.indexOperand inst) (natives : NativeTable) (streams : Streams) :
    (invokeVirtual natives inst f loader streams).Recoded (invokeVirtual natives inst' g loader' streams) := by
  unfold invokeVirtual
  rw [hfg.callSite_eq hindex]
  cases f.callSite inst with
  | error e => exact .ends streams (.fail e hfg) hl
  | ok site =>
    obtain ⟨target, types⟩ := site
    simp only [hfg.stack, hfg.operands_eq]
    cases natives.method? .virtual target.owner target.name types.length with
    | none => exact .ends streams (.fail _ hfg) hl
    | some action =>
      simp only
      split
      · exact .ends streams (.fail _ hfg) hl
      · cases f.stack.drop types.length with
        | nil => exact .ends streams (.fail _ (hfg.dropped _)) hl
        | cons receiver rest => exact native_recoded (hfg.dropped _) hl _ _ streams

/-- A computation in step has effects that are the same. -/
theorem within_recoded {α : Type} {act act' : OnFrame α} {next : α → Frame → Effect}
    (hact : InStep Frame.Recoded act act') (hfg : f.Recoded g)
    (hnext : ∀ a f g, f.Recoded g → (next a f).Recoded (next a g)) :
    (within act next f).Recoded (within act' next g) := by
  have hend := hact f g hfg
  unfold within
  generalize act f = r, act' g = r' at hend
  cases hend with
  | ok a hfg' => exact hnext a _ _ hfg'
  | error e hfg' => exact .fail e hfg'

end Outcome

/-- **One instruction.** -/
theorem outcome_recoded {files files' : FileSystem} {inst inst' : Instruction Nat} {f g : Frame}
    {loader loader' : Loader} (hfiles : files.Recoded files') (hinst : inst.Recoded inst') (hfg : f.Recoded g)
    (hl : loader.Recoded loader') (natives : NativeTable) (pc : Nat) (streams : Streams) :
    (outcome files natives inst pc f loader streams).Recoded
      (outcome files' natives inst' pc g loader' streams) := by
  have hindex : inst.opcode.operation.needs = some .index → Frame.indexOperand inst' = Frame.indexOperand inst :=
    fun hneeds => (Frame.operands_congr hinst.operand.symm).2.1 (hinst.fits _ hneeds)
  unfold outcome
  rw [hinst.operation_eq]
  cases hop : inst.opcode.operation with
  | within op =>
    exact .ends streams (Outcome.within_recoded (Frame.inStep_recoded hinst hop) hfg fun _ _ _ h => .stay h) hl
  | getStatic =>
    rw [hfg.staticField_eq (hindex (by rw [hop]; rfl))]
    cases f.staticField natives inst with
    | ok v => exact .ends streams (.stay (hfg.pushed v)) hl
    | error e => exact .ends streams (.fail e hfg) hl
  | invokeStatic => exact Outcome.invokeStatic_recoded hfiles hfg hl (hindex (by rw [hop]; rfl)) natives streams
  | invokeVirtual => exact Outcome.invokeVirtual_recoded hfg hl (hindex (by rw [hop]; rfl)) natives streams
  | returnVoid => exact .ends streams .leave hl
  | returnInt =>
    exact .ends streams (Outcome.within_recoded Frame.parallel_recoded.popInt hfg fun v _ _ _ => .give (.int v)) hl
  | returnReference =>
    exact .ends streams (Outcome.within_recoded Frame.parallel_recoded.popReference hfg fun v _ _ _ => .give v) hl
  | unsupported =>
    rw [hinst.opcode_eq (by simp [hop]), hfg.owner.name, hfg.method.name]
    exact .ends streams (.fail _ hfg) hl

/-- The same ending, and versions of the same frames. -/
theorem Effect.Recoded.settle {effect effect' : Effect} (h : effect.Recoded effect') {below below' : List Frame}
    (hbelow : List.Forall₂ Frame.Recoded below below') (limit : Nat) :
    ∃ fault frames frames', effect.settle limit below = some (fault, frames) ∧
      effect'.settle limit below' = some (fault, frames') ∧ List.Forall₂ Frame.Recoded frames frames' := by
  cases h with
  | stay hfg => exact ⟨_, _, _, rfl, rfl, .cons hfg hbelow⟩
  | call hfg hcallee =>
    simp only [Effect.settle, ← hbelow.length_eq]
    split
    · exact ⟨_, _, _, rfl, rfl, .cons hfg hbelow⟩
    · exact ⟨_, _, _, rfl, rfl, .cons hcallee (.cons hfg hbelow)⟩
  | leave => exact ⟨_, _, _, rfl, rfl, hbelow⟩
  | give v =>
    cases hbelow with
    | nil => exact ⟨_, _, _, rfl, rfl, .nil⟩
    | cons hcaller hrest => exact ⟨_, _, _, rfl, rfl, .cons (hcaller.pushed v) hrest⟩
  | fail e hfg => exact ⟨_, _, _, rfl, rfl, .cons hfg hbelow⟩

/-! ## Machines -/

/-- The machines have loaded and are running versions of the same methods, have come equally far, and differ in
nothing else but what they log. -/
structure Machine.Recoded (m m' : Machine) : Prop where
  loader : m.loader.Recoded m'.loader
  natives : m'.natives = m.natives
  streams : m'.streams = m.streams
  limit : m'.calls.limit = m.calls.limit
  frames : List.Forall₂ Frame.Recoded m.calls.frames m'.calls.frames
  executed : m'.executed = m.executed

/-- The same requests, with versions of the same files. -/
def History.Recoded (history history' : History) : Prop :=
  List.Forall₂ (fun asked asked' => asked.1.Recoded asked'.1 ∧ asked'.2 = asked.2) history history'

namespace Machine
variable {files files' : FileSystem} {m m' : Machine}

theorem Recoded.put (h : m.Recoded m') {loader loader' : Loader} (hl : loader.Recoded loader') (streams : Streams)
    {frames frames' : List Frame} (hframes : List.Forall₂ Frame.Recoded frames frames') (log log' : List Event) :
    (m.put loader streams frames log).Recoded (m'.put loader' streams frames' log') :=
  { h with loader := hl, streams := rfl, frames := hframes }

theorem Recoded.conclude (h : m.Recoded m') {o o' : Outcome} (ho : o.Recoded o') {below below' : List Frame}
    (hbelow : List.Forall₂ Frame.Recoded below below') (log log' : List Event) :
    EndInStep Recoded (m.conclude below o log) (m'.conclude below' o' log') := by
  unfold Machine.conclude
  rw [h.limit]
  cases ho with
  | hangs => exact .error _ h
  | ends streams heffect hl =>
    obtain ⟨fault, frames, frames', hsettle, hsettle', hframes⟩ := heffect.settle hbelow m.calls.limit
    have hput := h.put hl streams hframes log log'
    simp only [hsettle, hsettle']
    cases fault with
    | some e => exact .error _ hput
    | none => exact .ok true { hput with executed := congrArg (· + 1) h.executed }

/-- **One step.** -/
theorem step_recoded (hfiles : files.Recoded files') : InStep Recoded (step files) (step files') := by
  intro m m' h
  have hframes := h.frames
  cases hm : m.calls.frames with
  | nil =>
    rw [hm] at hframes
    have hm' := List.forall₂_nil_left_iff.1 hframes
    rw [step_eq_stepWith, step_eq_stepWith, stepWith_of_empty fetch files hm, stepWith_of_empty fetch files' hm']
    exact .ok false h
  | cons f below =>
    rw [hm] at hframes
    obtain ⟨g, below', hfg, hbelow, hm'⟩ := List.forall₂_cons_left_iff.1 hframes
    have hfetch := hfg.fetch?
    cases hf : f.fetch? with
    | error e =>
      rw [step_of_fetch_error hm hf, step_of_fetch_error hm' ((hfetch.error_iff e).1 hf)]
      exact .error _ h
    | ok inst =>
      obtain ⟨inst', hg, hinst⟩ := hfetch.exists_ok hf
      obtain ⟨log, hstep⟩ := step_eq hm hf files
      obtain ⟨log', hstep'⟩ := step_eq hm' hg files'
      have hnext : Frame.Recoded { f with pc := f.pc + 1 } { g with pc := g.pc + 1 } :=
        { hfg with pc := congrArg (· + 1) hfg.pc }
      rw [hstep, hstep', h.natives, h.streams, hfg.pc]
      rw [hfg.pc] at hnext
      exact h.conclude (outcome_recoded hfiles hinst hnext h.loader m.natives f.pc m.streams) hbelow log log'

theorem run_recoded (hfiles : files.Recoded files') (limit : Nat) :
    InStep Recoded (run files limit) (run files' limit) :=
  run_inStep (step_recoded hfiles) (fun _ _ _ _ h => { h with }) limit

/-! ### Programs -/

theorem entry_recoded {order order' : MethodOrder} (horder : order.Recoded order') {c c' : Class} (h : c.Recoded c') :
    Matches Frame.Recoded (c.entry order) (c'.entry order') := by
  have hmain := horder c c' h
  unfold Class.entry
  generalize c.entryPoint? order = found, c'.entryPoint? order' = found' at hmain
  cases hmain with
  | none =>
    rw [h.name]
    exact .error _
  | some hmethod =>
    simp only [h.name, hmethod.name, hmethod.descriptor, hmethod.isStatic, hmethod.isNone_code]
    split
    · exact .error _
    · exact .ok (Frame.recoded_ofCall h hmethod [])

theorem enter_recoded (hfiles : files.Recoded files') (h : m.Recoded m') (horder : m.order.Recoded m'.order)
    (className : String) : EndInStep Recoded (enter files className m) (enter files' className m') := by
  obtain ⟨hresult, hloader⟩ := Loader.resolve_recoded hfiles h.loader className
  have hentered : Matches (List.Forall₂ Frame.Recoded) (m.entered files className) (m'.entered files' className) := by
    unfold entered
    refine hresult.bind fun c c' hc => (entry_recoded horder hc).bind fun f g hfg => ?_
    rw [h.limit, CallStack.depth, CallStack.depth, ← h.frames.length_eq]
    split
    · exact .error _
    · exact .ok (.cons hfg h.frames)
  obtain ⟨log, henter⟩ := enter_eq files className m
  obtain ⟨log', henter'⟩ := enter_eq files' className m'
  rw [henter, henter', h.streams]
  generalize m.entered files className = frames, m'.entered files' className = frames' at hentered
  cases hentered with
  | ok hframes => exact .ok () (h.put hloader m.streams hframes log log')
  | error e => exact .error _ (h.put hloader m.streams h.frames log log')

theorem prepare_recoded (hfiles : files.Recoded files') (h : m.Recoded m') (horder : m.order.Recoded m'.order)
    (className : String) : EndInStep Recoded (prepare files className m) (prepare files' className m') := by
  obtain ⟨log, hprepare⟩ := prepare_eq files className m
  obtain ⟨log', hprepare'⟩ := prepare_eq files' className m'
  rw [hprepare, hprepare', h.streams]
  exact enter_recoded hfiles (h.put h.loader m.streams .nil log log') horder className

/-- **A request.** Where a program is to start, the orders of the methods have to agree. -/
theorem perform_recoded (hfiles : files.Recoded files') (h : m.Recoded m') {request : Request}
    (horder : request.continues = true ∨ m.order.Recoded m'.order) :
    EndInStep Recoded (request.perform files m) (request.perform files' m') := by
  cases request with
  | start className limit =>
    have hprepare := prepare_recoded hfiles h (horder.resolve_left Bool.false_ne_true) className
    exact hprepare.bind fun _ => run_recoded hfiles limit
  | enter className => exact enter_recoded hfiles h (horder.resolve_left Bool.false_ne_true) className
  | step => exact (step_recoded hfiles m m' h).bind fun _ => inStep_pure ()
  | run limit => exact run_recoded hfiles limit m m' h

/-- **A history of requests.** -/
theorem afterAll_recoded (h : m.Recoded m') {history history' : History} (hhistory : history.Recoded history')
    (horder : (∀ asked ∈ history, asked.2.continues = true) ∨ m.order.Recoded m'.order) :
    (m.afterAll history).Recoded (m'.afterAll history') := by
  induction hhistory generalizing m m' with
  | nil => exact h
  | @cons asked asked' rest rest' hasked _ ih =>
    obtain ⟨files, request⟩ := asked
    obtain ⟨files', request'⟩ := asked'
    obtain ⟨hfiles, hrequest⟩ := hasked
    obtain rfl : request' = request := hrequest
    have hfirst := perform_recoded hfiles h (horder.imp_left fun hall => hall _ List.mem_cons_self)
    refine ih (leftBy_of_inStep hfirst) ?_
    rw [(m.kept_after files request').order, (m'.kept_after files' request').order]
    exact horder.imp_left fun hall asked hmem => hall asked (List.mem_cons_of_mem _ hmem)

end Machine

/-- **All encodings of an instruction execute alike.** Encodings of one instruction are decoded to equivalent
instructions, each on its own and wherever they stand in code. And where instructions are equivalent throughout,
machines that have come equally far stay so: whatever steps and runs were asked of them, the next one gives the same
result or the same error, and leaves them with the same operands, locals and counters in each frame, the same output
and the same count of steps. So does the start of a program, if it starts with the same method. -/
theorem encodings_execute_alike :
    (∀ family operand enc enc', Encoding family operand enc → Encoding family operand enc' →
      (∃ inst inst', Code.decode enc = .ok #[inst] ∧ Code.decode enc' = .ok #[inst'] ∧ inst.Equivalent inst') ∧
      ∀ bytes bytes' code code', Code.decode bytes = .ok code → Code.decode bytes' = .ok code' →
        ∀ inst ∈ code, ∀ inst' ∈ code', enc <+: bytes.drop inst.offset → enc' <+: bytes'.drop inst'.offset →
          inst.Equivalent inst') ∧
      ∀ (m m' : Machine) (history history' : History), m.Recoded m' → history.Recoded history' →
        (∀ asked ∈ history, asked.2.continues = true) ∨ m.order.Recoded m'.order →
        (m.afterAll history).Recoded (m'.afterAll history') ∧
          ∀ files files' : FileSystem, files.Recoded files' →
            EndInStep Machine.Recoded (Machine.step files (m.afterAll history))
                (Machine.step files' (m'.afterAll history')) ∧
              ∀ request : Request, request.continues = true ∨ m.order.Recoded m'.order →
                EndInStep Machine.Recoded (request.perform files (m.afterAll history))
                  (request.perform files' (m'.afterAll history')) := by
  refine ⟨fun family operand enc enc' henc henc' => ⟨?_, ?_⟩, fun m m' history history' h hhistory horder => ?_⟩
  · obtain ⟨op, hop, hdecode⟩ := henc.decode_eq
    obtain ⟨op', hop', hdecode'⟩ := henc'.decode_eq
    exact ⟨_, _, hdecode, hdecode', rfl, henc.opcode_eq_or hop hop'⟩
  · intro bytes bytes' code code' hcode hcode' inst hinst inst' hinst' hat hat'
    exact henc.equivalent henc' hcode hcode' hinst hinst' hat hat'
  · have hafter := Machine.afterAll_recoded h hhistory horder
    refine ⟨hafter, fun files files' hfiles => ⟨Machine.step_recoded hfiles _ _ hafter, fun request hrequest => ?_⟩⟩
    refine Machine.perform_recoded hfiles hafter ?_
    rw [(m.kept_afterAll history).order, (m'.kept_afterAll history').order]
    exact hrequest

/-! ### A sum, written in two ways -/

namespace Sample

/-- The file of a class `A` whose `main` has this code. Constant 6 is the integer 70000. -/
def sumFile (code : Bytes) : Bytes := [
  0xca, 0xfe, 0xba, 0xbe, 0x00, 0x00, 0x00, 0x34,
  -- the constants: the names, the class 2 and the integer 6
  0x00, 0x07, 0x01, 0x00, 0x01, 0x41, 0x07, 0x00, 0x01, 0x01, 0x00, 0x04, 0x6d, 0x61, 0x69, 0x6e,
  0x01, 0x00, 0x03, 0x28, 0x29, 0x56, 0x01, 0x00, 0x04, 0x43, 0x6f, 0x64, 0x65,
  0x03, 0x00, 0x01, 0x11, 0x70,
  -- this class, which has no superclass
  0x00, 0x21, 0x00, 0x02, 0x00, 0x00, 0x00, 0x00, 0x00, 0x00,
  -- `main`
  0x00, 0x01, 0x00, 0x09, 0x00, 0x03, 0x00, 0x04, 0x00, 0x01, 0x00, 0x05,
  0x00, 0x00, 0x00, .ofNat (12 + code.length), 0x00, 0x02, 0x00, 0x02, 0x00, 0x00, 0x00, .ofNat code.length] ++
  code ++ [0x00, 0x00, 0x00, 0x00, 0x00, 0x00]

/-- The class of `sumFile`. -/
def sumClass (code : Code) : Class where
  name := "A"
  superName := none
  pool := ⟨#[.unusable, .utf8 "A", .classRef 1, .utf8 "main", .utf8 "()V", .utf8 "Code", .integer 70000]⟩
  methods := [⟨"main", "()V", 9, ⟨[], none⟩, 2, 2, some code⟩]

/-- There is nothing but `sumFile`. -/
def sumFiles (code : Bytes) : FileSystem := .ofRecord [("r/A.class", .ok (sumFile code))]

/-- Puts 5 into a local variable, takes it out again and adds the constant. -/
def shortSum : Bytes := [0x08, 0x3c, 0x1b, 0x12, 0x06, 0x60, 0x3c, 0xb1]

/-- The same with the long encodings. -/
def longSum : Bytes := [0x10, 0x05, 0xc4, 0x36, 0x00, 0x01, 0x15, 0x01, 0x13, 0x00, 0x06, 0x60, 0x36, 0x01, 0xb1]

def shortCode : Code := #[⟨0, .iconst5, .int 5⟩, ⟨1, .istore1, .slot 1⟩, ⟨2, .iload1, .slot 1⟩, ⟨3, .ldc, .index 6⟩,
  ⟨5, .iadd, .none⟩, ⟨6, .istore1, .slot 1⟩, ⟨7, .ret, .none⟩]

def longCode : Code := #[⟨0, .bipush, .int 5⟩, ⟨2, .istore, .slot 1⟩, ⟨6, .iload, .slot 1⟩, ⟨8, .ldcW, .index 6⟩,
  ⟨11, .iadd, .none⟩, ⟨12, .istore, .slot 1⟩, ⟨14, .ret, .none⟩]

/-- Nothing is loaded yet. -/
def adder : Machine := { loader := { roots := ["r"] } }

/-- The program is entered and adds. -/
def adding (code : Bytes) : History := (.enter "A" :: List.replicate 5 .step).map (sumFiles code, ·)

theorem recoded_sumClass {bytes bytes' : Bytes} {code code' : Code} (h : code.Recoded code')
    (hdecode : Code.decode bytes = .ok code) (hdecode' : Code.decode bytes' = .ok code') :
    (sumClass code).Recoded (sumClass code') where
  name := rfl
  superName := rfl
  pool := rfl
  methods := by
    refine .cons ⟨rfl, .some h, ?_, ?_⟩ .nil
    · rintro _ ⟨⟩
      exact ⟨bytes, hdecode⟩
    · rintro _ ⟨⟩
      exact ⟨bytes', hdecode'⟩

theorem recoded_sumFiles : (sumFiles shortSum).Recoded (sumFiles longSum) := by
  refine FileSystem.recoded_of_read fun path => ?_
  have hread (code : Bytes) :
      (sumFiles code).read path = if path = "r/A.class" then .ok (sumFile code) else .error .notFound := by
    simp only [sumFiles, FileSystem.ofRecord, List.lookup_cons, List.lookup_nil]
    by_cases hpath : path = "r/A.class"
    · simp [hpath]
    · simp [hpath, beq_false_of_ne hpath]
  rw [hread, hread]
  by_cases hpath : path = "r/A.class"
  · have hversion : (sumClass shortCode).Recoded (sumClass longCode) :=
      recoded_sumClass (by decide) (show Code.decode shortSum = _ by cbv) (show Code.decode longSum = _ by cbv)
    have hshort : Loader.declared? (sumFile shortSum) = some (sumClass shortCode) := by decide +kernel
    have hlong : Loader.declared? (sumFile longSum) = some (sumClass longCode) := by decide +kernel
    simp only [if_pos hpath]
    exact .inr ⟨_, _, _, _, rfl, rfl, hshort, hlong, hversion⟩
  · simp only [if_neg hpath]
    exact .inl trivial

end Sample

/-- The one program has added when the other one has, with the same sum; and both end. -/
theorem encodings_execute_alike_sum :
    (∃ inst inst', Code.decode [0x1b] = .ok #[inst] ∧ Code.decode [0xc4, 0x15, 0x00, 0x01] = .ok #[inst'] ∧
      inst.Equivalent inst') ∧
    (Sample.adder.afterAll (Sample.adding Sample.shortSum)).calls.frames.map (·.stack) = [[.int 70005]] ∧
    (Sample.adder.afterAll (Sample.adding Sample.shortSum)).Recoded
      (Sample.adder.afterAll (Sample.adding Sample.longSum)) ∧
    EndInStep Machine.Recoded (Machine.step (Sample.sumFiles Sample.shortSum)
        (Sample.adder.afterAll (Sample.adding Sample.shortSum)))
      (Machine.step (Sample.sumFiles Sample.longSum) (Sample.adder.afterAll (Sample.adding Sample.longSum))) := by
  have hstart : Sample.adder.Recoded Sample.adder :=
    ⟨⟨rfl, fun _ => .none⟩, rfl, rfl, rfl, .nil, rfl⟩
  have hhistory : (Sample.adding Sample.shortSum).Recoded (Sample.adding Sample.longSum) := by
    unfold History.Recoded Sample.adding
    rw [List.forall₂_map_left_iff, List.forall₂_map_right_iff, List.forall₂_same]
    exact fun _ _ => ⟨Sample.recoded_sumFiles, rfl⟩
  have hshort : Encoding [.iload, .iload0, .iload1, .iload2, .iload3] (.slot 1) [0x1b] :=
    @Encoding.short _ .iload1 1 (by decide) rfl
  have hlong : Encoding [.iload, .iload0, .iload1, .iload2, .iload3] (.slot 1) [0xc4, 0x15, 0x00, 0x01] :=
    @Encoding.wide _ .iload 1 (by decide) rfl
  obtain ⟨hafter, hmore⟩ := encodings_execute_alike.2 Sample.adder Sample.adder _ _ hstart hhistory
    (.inr MethodOrder.recoded_ofFile)
  refine ⟨(encodings_execute_alike.1 _ _ _ _ hshort hlong).1, by decide +kernel, hafter, ?_⟩
  exact (hmore _ _ Sample.recoded_sumFiles).1

end Jvm
