import Jvm.Proofs.Machine.StaticCall
import Jvm.Proofs.Native

/-!
# Native calls

`Frame.AtCall` says that an instruction is a call, with its operands on the stack. If there is an entry for the
key of the call, `step_of_atCall` gives the whole step: it does what the entry says, and nothing else. Neither
files nor loader have a part in it.
-/

namespace Jvm

/-- The instruction that makes such calls. -/
def CallKind.opcode : CallKind → Opcode
  | .static => .invokestatic
  | .virtual => .invokevirtual

/-- What a call of the method looks under for a native method. -/
def MemberRef.key (target : MemberRef) (kind : CallKind) (arity : Nat) : NativeKey :=
  ⟨kind, target.owner, target.name, arity⟩

theorem NativeTable.method?_of_target (table : NativeTable) (target : MemberRef) (kind : CallKind) (arity : Nat) :
    table.method? kind target.owner target.name arity = (table.latest? (target.key kind arity)).map (·.action) :=
  table.method?_eq kind target.owner target.name arity

/-- The call has so many arguments and parameter types, and an object just if it is a virtual one. -/
structure NativeCall.Fits (call : NativeCall) (kind : CallKind) (arity : Nat) : Prop where
  arguments : call.arguments.length = arity
  types : call.types.length = arity
  receiver : call.receiver.isSome = true ↔ kind = .virtual

/-- Slot `index` names `target`, and the operands of a call of it are on the stack: the arguments, in the order
they were pushed, and below them the object, if there is one. -/
structure Frame.Offers (f : Frame) (index : UInt16) (kind : CallKind) (target : MemberRef) (call : NativeCall)
    (rest : List Value) : Prop where
  names : f.Names index target call.types
  fits : call.Fits kind call.types.length
  operands : f.stack = call.arguments.reverse ++ (call.receiver.toList ++ rest)

/-- The next instruction of the frame is a call, and the operands are there. -/
structure Frame.AtCall (f : Frame) (inst : Instruction Nat) (kind : CallKind) (target : MemberRef) (call : NativeCall)
    (rest : List Value) : Prop where
  fetches : f.fetch? = .ok inst
  opcode : inst.opcode = kind.opcode
  offers : ∃ index, inst.operand = .index index ∧ f.Offers index kind target call rest

theorem Frame.offers_moved_iff {f : Frame} {index : UInt16} {kind : CallKind} {target : MemberRef} {call : NativeCall}
    {rest : List Value} : f.moved.Offers index kind target call rest ↔ f.Offers index kind target call rest :=
  ⟨fun ⟨hnames, hfits, hstack⟩ => ⟨names_moved_iff.1 hnames, hfits, hstack⟩,
    fun ⟨hnames, hfits, hstack⟩ => ⟨names_moved_iff.2 hnames, hfits, hstack⟩⟩

namespace Machine
variable {files : FileSystem} {m : Machine} {f g : Frame} {below : List Frame} {inst : Instruction Nat}
  {index : UInt16} {target : MemberRef} {types : List FieldType} {action : NativeAction} {call : NativeCall}
  {arguments rest : List Value}

/-! ## The call -/

/-- How a native call ends: the operands are gone, a value is pushed, and the frame goes on. -/
def afterNative (m : Machine) (f : Frame) (below : List Frame) (inst : Instruction Nat) (rest : List Value)
    (result : EStateM.Result Error Streams (Option Value)) : EStateM.Result Stop Machine Bool :=
  let log := (m.logging (.executing f.pc inst.opcode inst.operand)).log
  match result with
  | .ok value streams =>
    .ok true { m.put m.loader streams ({ f.moved with stack := value.toList ++ rest } :: below) log with
      executed := m.executed + 1 }
  | .error e streams => .error (.failed e) (m.put m.loader streams ({ f.moved with stack := rest } :: below) log)

theorem onTop_popArguments (hm : m.calls.frames = g :: below) (hstack : g.stack = arguments.reverse ++ rest) :
    onTop (Frame.popArguments arguments.length) m =
      .ok arguments (m.put m.loader m.streams ({ g with stack := rest } :: below) m.log) := by
  refine onTop_ok hm ?_
  have hlength : arguments.reverse.length = arguments.length := List.length_reverse
  have henough : ¬g.stack.length < arguments.length := by
    rw [hstack, List.length_append, hlength]
    omega
  rw [Frame.popArguments, if_neg henough, hstack, List.take_left' hlength, List.drop_left' hlength,
    List.reverse_reverse]

theorem callNative_eq (hm : m.calls.frames = g :: below) (action : NativeAction) (call : NativeCall) :
    callNative action call m =
      match action call m.streams with
      | .ok value streams =>
        .ok () (m.put m.loader streams ({ g with stack := value.toList ++ g.stack } :: below) m.log)
      | .error e streams => .error (.failed e) (m.put m.loader streams (g :: below) m.log) := by
  have hrun : onStreams (action call) m =
      match action call m.streams with
      | .ok value streams => .ok value (m.put m.loader streams (g :: below) m.log)
      | .error e streams => .error (.failed e) (m.put m.loader streams (g :: below) m.log) := by
    simp only [onStreams, put, ← hm]
    cases action call m.streams <;> rfl
  cases h : action call m.streams with
  | error e streams =>
    rw [h] at hrun
    exact bind_of_error hrun
  | ok value streams =>
    rw [h] at hrun
    rw [callNative, bind_of_ok hrun]
    cases value with
    | none => rfl
    | some v => exact onTop_ok rfl rfl

/-- A call site goes on with the method that it names. -/
theorem callSite_of_names {α : Type} (hm : m.calls.frames = g :: below) (hnames : g.Names index target types)
    (k : MemberRef → List FieldType → Exec α) :
    (callTarget index >>= fun target => orFail (callTypes target.descriptor) >>= k target) m = k target types m := by
  rw [bind_of_ok (callTarget_ok hm hnames.reference), hnames.callTypes_eq]
  rfl

/-- A call site that names no method fails. -/
theorem callSite_of_nameless {α : Type} {e : Error} (hm : m.calls.frames = g :: below) (h : g.Nameless index e)
    (k : MemberRef → List FieldType → Exec α) :
    (callTarget index >>= fun target => orFail (callTypes target.descriptor) >>= k target) m =
      .error (.failed e) m := by
  rcases h.reference_or_types with ⟨d, hreference, rfl⟩ | ⟨target, hreference, htypes⟩
  · rw [bind_of_error (callTarget_error hm hreference), put_self hm]
  · rw [bind_of_ok (callTarget_ok hm hreference), htypes]
    rfl

theorem invokeStatic_eq (hm : m.calls.frames = g :: below) (hnames : g.Names index target types)
    (haction : m.natives.method? .static target.owner target.name types.length = some action) (files : FileSystem) :
    invokeStatic files index m =
      (onTop (Frame.popArguments types.length) >>= fun arguments => callNative action { arguments, types }) m := by
  rw [invokeStatic, callSite_of_names hm hnames, get_bind]
  simp only [haction]

theorem invokeVirtual_eq (hm : m.calls.frames = g :: below) (hnames : g.Names index target types)
    (haction : m.natives.method? .virtual target.owner target.name types.length = some action) :
    invokeVirtual index m =
      (onTop (Frame.popArguments types.length) >>= fun arguments => onTop Frame.pop >>= fun receiver =>
        callNative action { receiver := some receiver, arguments, types }) m := by
  rw [invokeVirtual, callSite_of_names hm hnames, get_bind]
  simp only [haction]

theorem invokeStatic_of_unregistered (hm : m.calls.frames = g :: below) (hnames : g.Names index target types)
    (haction : m.natives.method? .static target.owner target.name types.length = none) (files : FileSystem) :
    invokeStatic files index m = callBytecode files target m := by
  rw [invokeStatic, callSite_of_names hm hnames, get_bind]
  simp only [haction]

theorem invokeVirtual_of_unregistered (hm : m.calls.frames = g :: below) (hnames : g.Names index target types)
    (haction : m.natives.method? .virtual target.owner target.name types.length = none) :
    invokeVirtual index m = .error (.failed (.unsupported (.virtualCall target))) m := by
  rw [invokeVirtual, callSite_of_names hm hnames, get_bind]
  simp only [haction]
  rfl

theorem onTop_popArguments_of_few (hm : m.calls.frames = g :: below) {n : Nat} (hfew : g.stack.length < n) :
    onTop (Frame.popArguments n) m = .error (.failed .stackUnderflow) m := by
  have hpop : Frame.popArguments n g = .error .stackUnderflow g := if_pos hfew
  rw [onTop_error hm hpop, put_self hm]

theorem invokeStatic_of_offers (hm : m.calls.frames = g :: below) (h : g.Offers index .static target call rest)
    (haction : m.natives.method? .static target.owner target.name call.types.length = some action)
    (files : FileSystem) :
    invokeStatic files index m =
      callNative action call (m.put m.loader m.streams ({ g with stack := rest } :: below) m.log) := by
  obtain ⟨receiver, arguments, types⟩ := call
  obtain rfl : receiver = none := by
    cases receiver with
    | none => rfl
    | some v => cases h.fits.receiver.1 rfl
  rw [invokeStatic_eq hm h.names haction, ← h.fits.arguments, bind_of_ok (onTop_popArguments hm h.operands)]
  rfl

theorem invokeVirtual_of_offers (hm : m.calls.frames = g :: below) (h : g.Offers index .virtual target call rest)
    (haction : m.natives.method? .virtual target.owner target.name call.types.length = some action) :
    invokeVirtual index m =
      callNative action call (m.put m.loader m.streams ({ g with stack := rest } :: below) m.log) := by
  obtain ⟨receiver, arguments, types⟩ := call
  obtain ⟨receiver, rfl⟩ := Option.isSome_iff_exists.1 (h.fits.receiver.2 rfl)
  have hpop : onTop Frame.pop (m.put m.loader m.streams ({ g with stack := receiver :: rest } :: below) m.log) =
      .ok receiver (m.put m.loader m.streams ({ g with stack := rest } :: below) m.log) := onTop_ok rfl rfl
  rw [invokeVirtual_eq hm h.names haction, ← h.fits.arguments, bind_of_ok (onTop_popArguments hm h.operands)]
  exact bind_of_ok hpop

/-- The machine with its next instruction fetched. -/
def fetched (m : Machine) (f : Frame) (below : List Frame) (inst : Instruction Nat) : Machine :=
  m.put m.loader m.streams (f.moved :: below) (m.logging (.executing f.pc inst.opcode inst.operand)).log

theorem put_logging (loader : Loader) (streams : Streams) (frames : List Frame) (event : Event) :
    (m.put loader streams frames m.log).logging event = m.put loader streams frames (m.logging event).log := by
  have hlevel : (m.put loader streams frames m.log).logLevel = m.logLevel := rfl
  rw [logging, logging, hlevel]
  split <;> rfl

theorem step_of_fetch? (hm : m.calls.frames = f :: below) (hfetch : f.fetch? = .ok inst) (files : FileSystem) :
    step files m =
      match execute files inst f.pc (m.fetched f below inst) with
      | .ok _ after => .ok true { after with executed := after.executed + 1 }
      | .error .unfinished _ => .error .unfinished m
      | .error (.failed e) after => .error (.failed e) after := by
  have hne : ¬m.calls.isEmpty = true := by
    rw [CallStack.isEmpty, hm]
    simp
  have hinst : onTop fetch m = .ok inst (m.put m.loader m.streams (f.moved :: below) m.log) :=
    onTop_ok hm (by rw [fetch_eq, hfetch]; rfl)
  have hnote : note (.executing f.pc inst.opcode inst.operand) (m.put m.loader m.streams (f.moved :: below) m.log) =
      .ok () (m.fetched f below inst) := congrArg (EStateM.Result.ok ()) (put_logging ..)
  rw [step, if_neg hne, advance, bind_of_ok (onTop_pc_eq hm), bind_of_ok hinst, bind_of_ok hnote]
  cases h : execute files inst f.pc (m.fetched f below inst) with
  | ok _ after =>
    rw [bind_of_ok h]
    rfl
  | error stop after =>
    rw [bind_of_error h]
    cases stop <;> rfl

theorem execute_invokeStatic (hop : inst.opcode = .invokestatic) (hindex : inst.operand = .index index)
    (files : FileSystem) (pc : Nat) : execute files inst pc = invokeStatic files index := by
  have hoperand : Frame.indexOperand inst = .ok index := by simp only [Frame.indexOperand, hindex]
  rw [execute, hop]
  show (orFail (Frame.indexOperand inst) >>= fun index => invokeStatic files index) = _
  rw [hoperand]
  rfl

theorem execute_invokeVirtual (hop : inst.opcode = .invokevirtual) (hindex : inst.operand = .index index)
    (files : FileSystem) (pc : Nat) : execute files inst pc = invokeVirtual index := by
  have hoperand : Frame.indexOperand inst = .ok index := by simp only [Frame.indexOperand, hindex]
  rw [execute, hop]
  show (orFail (Frame.indexOperand inst) >>= fun index => invokeVirtual index) = _
  rw [hoperand]
  rfl

/-- **A native call**, from the instruction that makes it to the next one. -/
theorem step_of_atCall {kind : CallKind} {method : NativeMethod} (hm : m.calls.frames = f :: below)
    (h : f.AtCall inst kind target call rest)
    (hlatest : m.natives.latest? (target.key kind call.types.length) = some method) (files : FileSystem) :
    step files m = m.afterNative f below inst rest (method.action call m.streams) := by
  obtain ⟨hfetch, hop, index, hindex, hoffers⟩ := h
  have haction : (m.fetched f below inst).natives.method? kind target.owner target.name call.types.length =
      some method.action := by
    rw [NativeTable.method?_eq]
    exact congrArg _ hlatest
  have hexecute : execute files inst f.pc (m.fetched f below inst) = callNative method.action call
      (m.put m.loader m.streams ({ f.moved with stack := rest } :: below) (m.fetched f below inst).log) := by
    cases kind with
    | static =>
      rw [execute_invokeStatic hop hindex]
      exact invokeStatic_of_offers rfl (Frame.offers_moved_iff.2 hoffers) haction files
    | virtual =>
      rw [execute_invokeVirtual hop hindex]
      exact invokeVirtual_of_offers rfl (Frame.offers_moved_iff.2 hoffers) haction
  rw [step_of_fetch? hm hfetch, hexecute, callNative_eq rfl]
  simp only [put]
  cases method.action call m.streams <;> rfl

end Machine

end Jvm
