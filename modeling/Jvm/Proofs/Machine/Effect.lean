import Jvm.Machine.Step
import Jvm.Proofs.Frame

/-!
# What one instruction does, without the monads

`Machine.step` threads a whole machine through each instruction. What an instruction does is much
less: from the running frame, the loader and the streams it finds an `Effect`, which never looks at
the frames below. `settle` carries the effect out on the call stack.

Main theorem `stepWith_eq`: a step is exactly fetch, `outcome`, `settle`; only the log is left open.
It is stated for any way to fetch, so that machines which read their code differently share it.
-/

namespace Jvm

/-- What an instruction makes of the running frame. -/
inductive Effect where
  /-- The frame goes on. -/
  | stay (frame : Frame)
  /-- The frame waits for a call. -/
  | call (caller callee : Frame)
  /-- The frame is left. -/
  | leave
  /-- The frame is left, and its value goes to the caller. -/
  | give (value : Value)
  | fail (error : Error) (frame : Frame)
  /-- The instruction would never end. -/
  | hang

/-- What an instruction does. -/
structure Outcome where
  effect : Effect
  loader : Loader
  streams : Streams

namespace Frame

/-- The frame with one more operand. -/
def pushed (f : Frame) (v : Value) : Frame := { f with stack := v :: f.stack }

/-- The frame without its `n` topmost operands. -/
def dropped (f : Frame) (n : Nat) : Frame := { f with stack := f.stack.drop n }

/-- The `n` topmost operands, in the order they were pushed. -/
def operands (f : Frame) (n : Nat) : List Value := (f.stack.take n).reverse

/-- The method that a call instruction names, and the parameter types it declares. -/
def callSite (f : Frame) (inst : Instruction Nat) : Except Error (MemberRef × List FieldType) := do
  let index ← indexOperand inst
  let target ← (f.owner.pool.method index).mapError .defect
  return (target, ← Machine.callTypes target.descriptor)

/-- The value that a field instruction pushes. -/
def staticField (natives : NativeTable) (f : Frame) (inst : Instruction Nat) : Except Error Value := do
  let index ← indexOperand inst
  let field ← (f.owner.pool.field index).mapError .defect
  match natives.field? field.owner field.name with
  | some v => return v
  | none => throw (.unsupported (.staticField field.owner field.name))

end Frame

namespace Outcome

/-- A native call whose operands have left the frame `f`. -/
def native (action : NativeAction) (call : NativeCall) (f : Frame) (loader : Loader) (streams : Streams) :
    Outcome :=
  match action call streams with
  | .ok (some v) streams => ⟨.stay (f.pushed v), loader, streams⟩
  | .ok none streams => ⟨.stay f, loader, streams⟩
  | .error e streams => ⟨.fail e f, loader, streams⟩

/-- A call of the bytecode that `target` names. -/
def bytecode (files : FileSystem) (target : MemberRef) (f : Frame) (loader : Loader) (streams : Streams) :
    Outcome :=
  let found := loader.findMethod files target
  match found.result with
  | .error .unfinished => ⟨.hang, found.loader, streams⟩
  | .error (.failed e) => ⟨.fail e f, found.loader, streams⟩
  | .ok (owner, method) =>
    if !method.isStatic || method.code.isNone then
      ⟨.fail (.unsupported (.staticCall owner.name method.name method.descriptor)) f,
        found.loader, streams⟩
    else if f.stack.length < method.argumentCount then
      ⟨.fail .stackUnderflow f, found.loader, streams⟩
    else
      ⟨.call (f.dropped method.argumentCount)
        (.ofCall owner method (f.operands method.argumentCount)), found.loader, streams⟩

/-- A static call. -/
def invokeStatic (files : FileSystem) (natives : NativeTable) (inst : Instruction Nat) (f : Frame)
    (loader : Loader) (streams : Streams) : Outcome :=
  match f.callSite inst with
  | .error e => ⟨.fail e f, loader, streams⟩
  | .ok (target, types) =>
    match natives.method? .static target.owner target.name types.length with
    | none => bytecode files target f loader streams
    | some action =>
      if f.stack.length < types.length then ⟨.fail .stackUnderflow f, loader, streams⟩
      else
        native action { arguments := f.operands types.length, types } (f.dropped types.length)
          loader streams

/-- A virtual call: the receiver stands below the arguments. -/
def invokeVirtual (natives : NativeTable) (inst : Instruction Nat) (f : Frame)
    (loader : Loader) (streams : Streams) : Outcome :=
  match f.callSite inst with
  | .error e => ⟨.fail e f, loader, streams⟩
  | .ok (target, types) =>
    match natives.method? .virtual target.owner target.name types.length with
    | none => ⟨.fail (.unsupported (.virtualCall target)) f, loader, streams⟩
    | some action =>
      if f.stack.length < types.length then ⟨.fail .stackUnderflow f, loader, streams⟩
      else
        match f.stack.drop types.length with
        | [] => ⟨.fail .stackUnderflow (f.dropped types.length), loader, streams⟩
        | receiver :: _ =>
          native action { receiver := some receiver, arguments := f.operands types.length, types }
            (f.dropped (types.length + 1)) loader streams

/-- A computation that stays within the frame, carried on by `next`. -/
def within {α : Type} (act : OnFrame α) (next : α → Frame → Effect) (f : Frame) : Effect :=
  match act f with
  | .ok a f => next a f
  | .error e f => .fail e f

end Outcome

/-- What the instruction `inst`, found at `pc`, does in the frame `f`. -/
def outcome (files : FileSystem) (natives : NativeTable) (inst : Instruction Nat) (pc : Nat) (f : Frame)
    (loader : Loader) (streams : Streams) : Outcome :=
  match inst.opcode.operation with
  | .within op => ⟨Outcome.within (Frame.perform op inst) (fun _ f => .stay f) f, loader, streams⟩
  | .getStatic =>
    match f.staticField natives inst with
    | .ok v => ⟨.stay (f.pushed v), loader, streams⟩
    | .error e => ⟨.fail e f, loader, streams⟩
  | .invokeStatic => Outcome.invokeStatic files natives inst f loader streams
  | .invokeVirtual => Outcome.invokeVirtual natives inst f loader streams
  | .returnVoid => ⟨.leave, loader, streams⟩
  | .returnInt => ⟨Outcome.within Frame.popInt (fun v _ => .give (.int v)) f, loader, streams⟩
  | .returnReference => ⟨Outcome.within Frame.popReference (fun v _ => .give v) f, loader, streams⟩
  | .unsupported =>
    ⟨.fail (.unsupportedOpcode inst.opcode f.owner.name f.method.name pc) f, loader, streams⟩

/-- How a step ends, and the frames after it, given the `limit` of their number and the frames
`below` the running one; `none` if it does not end. -/
def Effect.settle (limit : Nat) (below : List Frame) : Effect → Option (Option Error × List Frame)
  | .stay f => some (none, f :: below)
  | .call caller callee =>
    if limit ≤ below.length + 1 then some (some (.stackOverflow limit), caller :: below)
    else some (none, callee :: caller :: below)
  | .leave => some (none, below)
  | .give v =>
    match below with
    | [] => some (some (.invalidFrameAccess .noCaller), [])
    | caller :: below => some (none, caller.pushed v :: below)
  | .fail e f => some (some e, f :: below)
  | .hang => none

/-- Neither a failure nor a hang. -/
def Effect.Succeeds : Effect → Prop
  | .fail _ _ | .hang => False
  | _ => True

theorem Effect.succeeds_of_settle {effect : Effect} {limit : Nat} {below frames : List Frame}
    (h : effect.settle limit below = some (none, frames)) : effect.Succeeds := by
  cases effect with
  | fail | hang => cases h
  | _ => trivial

/-! ## Carrying an outcome out -/

namespace Machine

/-- The machine with another loader, other streams and frames, and another log. -/
def put (m : Machine) (loader : Loader) (streams : Streams) (frames : List Frame) (log : List Event) :
    Machine :=
  { m with loader, streams, calls := { m.calls with frames }, log }

/-- How a step ends whose instruction has the outcome `o`. A step that never ends is not taken. -/
def conclude (m : Machine) (below : List Frame) (o : Outcome) (log : List Event) :
    EStateM.Result Stop Machine Bool :=
  match o.effect.settle m.calls.limit below with
  | none => .error .unfinished m
  | some (some e, frames) => .error (.failed e) (m.put o.loader o.streams frames log)
  | some (none, frames) =>
    .ok true { m.put o.loader o.streams frames log with executed := m.executed + 1 }

/-- `advance` with another way to fetch. -/
def advanceWith (fetch : OnFrame (Instruction Nat)) (files : FileSystem) : Exec Unit := do
  let pc ← onTop do return (← get).pc
  let inst ← onTop fetch
  note (.executing pc inst.opcode inst.operand)
  execute files inst pc
  modify fun m => { m with executed := m.executed + 1 }

/-- `step` with another way to fetch. -/
def stepWith (fetch : OnFrame (Instruction Nat)) (files : FileSystem) : Exec Bool := fun m =>
  if m.calls.isEmpty then .ok false m
  else
    match advanceWith fetch files m with
    | .ok _ after => .ok true after
    | .error .unfinished _ => .error .unfinished m
    | .error (.failed e) after => .error (.failed e) after

theorem step_eq_stepWith (files : FileSystem) : step files = stepWith fetch files := rfl

/-! ### Elementary computations on a machine with a running frame -/

theorem logging_eq (m : Machine) (event : Event) : ∃ log, m.logging event = { m with log } := by
  unfold logging
  split
  · exact ⟨_, rfl⟩
  · exact ⟨m.log, rfl⟩

theorem foldl_logging_eq (events : List Event) (m : Machine) :
    ∃ log, events.foldl logging m = { m with log } := by
  induction events generalizing m with
  | nil => exact ⟨m.log, rfl⟩
  | cons event rest ih =>
    obtain ⟨log, h⟩ := logging_eq m event
    obtain ⟨log', h'⟩ := ih (m.logging event)
    exact ⟨log', by rw [List.foldl_cons, h', h]⟩

section
variable {m : Machine} {f : Frame} {below : List Frame}

theorem onTop_eq {α : Type} (hm : m.calls.frames = f :: below) (act : OnFrame α) :
    onTop act m =
      match act f with
      | .ok a f => .ok a (m.put m.loader m.streams (f :: below) m.log)
      | .error e f => .error (.failed e) (m.put m.loader m.streams (f :: below) m.log) := by
  simp only [onTop, CallStack.onTop, hm]
  cases act f <;> rfl

theorem onTop_ok {α : Type} (hm : m.calls.frames = f :: below) {act : OnFrame α} {a : α} {f' : Frame}
    (h : act f = .ok a f') : onTop act m = .ok a (m.put m.loader m.streams (f' :: below) m.log) := by
  rw [onTop_eq hm, h]

theorem onTop_error {α : Type} (hm : m.calls.frames = f :: below) {act : OnFrame α} {e : Error}
    {f' : Frame} (h : act f = .error e f') :
    onTop act m = .error (.failed e) (m.put m.loader m.streams (f' :: below) m.log) := by
  rw [onTop_eq hm, h]

theorem put_self (hm : m.calls.frames = f :: below) : m.put m.loader m.streams (f :: below) m.log = m := by
  rw [put, ← hm]

theorem currentClass_eq (hm : m.calls.frames = f :: below) : currentClass m = .ok f.owner m := by
  have h : currentClass m = .ok f.owner (m.put m.loader m.streams (f :: below) m.log) := onTop_ok hm rfl
  rw [h, put_self hm]

/-- That `act`, started on `m` above the frames `below`, does what the outcome `o` says. -/
def Carries (act : Exec Unit) (m : Machine) (below : List Frame) (o : Outcome) : Prop :=
  match o.effect.settle m.calls.limit below with
  | none => ∃ m', act m = .error .unfinished m'
  | some (some e, frames) => ∃ log, act m = .error (.failed e) (m.put o.loader o.streams frames log)
  | some (none, frames) => ∃ log, act m = .ok () (m.put o.loader o.streams frames log)

/-- A first part that succeeds. -/
theorem Carries.bind {α : Type} {act : Exec α} {k : α → Exec Unit} {a : α} {o : Outcome}
    {loader : Loader} {streams : Streams} {frames : List Frame} {log : List Event}
    (h : act m = .ok a (m.put loader streams frames log))
    (hc : Carries (k a) (m.put loader streams frames log) below o) : Carries (act >>= k) m below o := by
  unfold Carries at *
  rw [bind_of_ok h]
  exact hc

/-- A first part that succeeds and changes nothing. -/
theorem Carries.bind_pure {α : Type} {act : Exec α} {k : α → Exec Unit} {a : α} {o : Outcome}
    (h : act m = .ok a m) (hc : Carries (k a) m below o) : Carries (act >>= k) m below o := by
  have h' : act m = .ok a (m.put m.loader m.streams m.calls.frames m.log) := h
  exact Carries.bind h' hc

/-- A first part that fails. -/
theorem Carries.bind_fail {α : Type} {act : Exec α} {k : α → Exec Unit} {e : Error}
    {loader : Loader} {streams : Streams} {log : List Event}
    (h : act m = .error (.failed e) (m.put loader streams (f :: below) log)) :
    Carries (act >>= k) m below ⟨.fail e f, loader, streams⟩ :=
  ⟨log, bind_of_error h⟩

/-- A first part that does not end. -/
theorem Carries.bind_hang {α : Type} {act : Exec α} {k : α → Exec Unit} {m' : Machine}
    {loader : Loader} {streams : Streams} (h : act m = .error .unfinished m') :
    Carries (act >>= k) m below ⟨.hang, loader, streams⟩ :=
  ⟨m', bind_of_error h⟩

theorem carries_push (hm : m.calls.frames = f :: below) (v : Value) :
    Carries (onTop (Frame.push v)) m below ⟨.stay (f.pushed v), m.loader, m.streams⟩ :=
  ⟨m.log, onTop_ok hm rfl⟩

theorem carries_fail (hm : m.calls.frames = f :: below) (e : Error) :
    Carries (fail e) m below ⟨.fail e f, m.loader, m.streams⟩ :=
  ⟨m.log, by rw [put_self hm]; rfl⟩

theorem carries_orFail {α : Type} (hm : m.calls.frames = f :: below) (e : Error) (k : α → Exec Unit) :
    Carries (orFail (.error e) >>= k) m below ⟨.fail e f, m.loader, m.streams⟩ := by
  have h : (orFail (.error e) : Exec α) m =
      .error (.failed e) (m.put m.loader m.streams (f :: below) m.log) := by
    rw [put_self hm]
    rfl
  exact Carries.bind_fail h

/-! ### The instructions -/

theorem carries_getStatic (hm : m.calls.frames = f :: below) (inst : Instruction Nat) :
    Carries (do getStatic (← orFail (Frame.indexOperand inst))) m below
      (match f.staticField m.natives inst with
        | .ok v => ⟨.stay (f.pushed v), m.loader, m.streams⟩
        | .error e => ⟨.fail e f, m.loader, m.streams⟩) := by
  simp only [Frame.staticField]
  cases Frame.indexOperand inst with
  | error e => exact carries_orFail hm e _
  | ok index =>
    refine Carries.bind_pure rfl (Carries.bind_pure (currentClass_eq hm) ?_)
    simp only [bind, Except.bind]
    cases f.owner.pool.field index with
    | error d => exact carries_orFail hm (.defect d) _
    | ok field =>
      refine Carries.bind_pure rfl (Carries.bind_pure rfl ?_)
      simp only [Except.mapError]
      cases m.natives.field? field.owner field.name with
      | none => exact carries_fail hm _
      | some v => exact carries_push hm v

theorem carries_native (hm : m.calls.frames = f :: below) (action : NativeAction) (call : NativeCall) :
    Carries (callNative action call) m below (Outcome.native action call f m.loader m.streams) := by
  have hrun : onStreams (action call) m =
      match action call m.streams with
      | .ok a streams => .ok a (m.put m.loader streams (f :: below) m.log)
      | .error e streams => .error (.failed e) (m.put m.loader streams (f :: below) m.log) := by
    simp only [onStreams, put, ← hm]
    cases action call m.streams <;> rfl
  unfold Outcome.native
  cases h : action call m.streams with
  | error e streams =>
    rw [h] at hrun
    exact Carries.bind_fail hrun
  | ok result streams =>
    rw [h] at hrun
    refine Carries.bind hrun ?_
    cases result with
    | none => exact ⟨_, rfl⟩
    | some v => exact carries_push rfl v

theorem carries_pushFrame (hm : m.calls.frames = f :: below) (callee : Frame) :
    Carries (pushFrame callee) m below ⟨.call f callee, m.loader, m.streams⟩ := by
  have hpush : m.calls.push callee =
      if m.calls.limit ≤ below.length + 1 then .error (.stackOverflow m.calls.limit)
      else .ok { m.calls with frames := callee :: f :: below } := by
    simp only [CallStack.push, CallStack.depth, hm, List.length_cons]
  have hrun : pushFrame callee m =
      (do
        let calls ← orFail (m.calls.push callee)
        modify fun m => { m with calls }
        note (CallStack.enteredEvent callee calls.depth) : Exec Unit) m := rfl
  by_cases hl : m.calls.limit ≤ below.length + 1
  · rw [hpush, if_pos hl] at hrun
    simp only [Carries, Effect.settle, if_pos hl]
    exact ⟨m.log, by rw [hrun, put_self hm]; rfl⟩
  · rw [hpush, if_neg hl] at hrun
    simp only [Carries, Effect.settle, if_neg hl]
    obtain ⟨log, hlog⟩ := logging_eq { m with calls := { m.calls with frames := callee :: f :: below } }
      (CallStack.enteredEvent callee (below.length + 2))
    refine ⟨log, ?_⟩
    rw [hrun]
    exact congrArg (EStateM.Result.ok ()) hlog

theorem callTarget_ok (hm : m.calls.frames = f :: below) {index : UInt16} {target : MemberRef}
    (h : f.owner.pool.method index = .ok target) : callTarget index m = .ok target m := by
  rw [callTarget, bind_of_ok (currentClass_eq hm), h]
  rfl

theorem callTarget_error (hm : m.calls.frames = f :: below) {index : UInt16} {d : Defect}
    (h : f.owner.pool.method index = .error d) :
    callTarget index m =
      .error (.failed (.defect d)) (m.put m.loader m.streams (f :: below) m.log) := by
  rw [callTarget, bind_of_ok (currentClass_eq hm), h, put_self hm]
  rfl

theorem carries_callSite (hm : m.calls.frames = f :: below) (inst : Instruction Nat)
    {k : MemberRef → List FieldType → Exec Unit} {o : MemberRef → List FieldType → Outcome}
    (hk : ∀ target types, Carries (k target types) m below (o target types)) :
    Carries
      (do
        let index ← orFail (Frame.indexOperand inst)
        let target ← callTarget index
        k target (← orFail (callTypes target.descriptor)))
      m below
      (match f.callSite inst with
        | .error e => ⟨.fail e f, m.loader, m.streams⟩
        | .ok (target, types) => o target types) := by
  simp only [Frame.callSite]
  cases Frame.indexOperand inst with
  | error e => exact carries_orFail hm e _
  | ok index =>
    refine Carries.bind_pure rfl ?_
    simp only [bind, Except.bind]
    cases hp : f.owner.pool.method index with
    | error d => exact Carries.bind_fail (callTarget_error hm hp)
    | ok target =>
      refine Carries.bind_pure (callTarget_ok hm hp) ?_
      simp only [Except.mapError]
      cases callTypes target.descriptor with
      | error e => exact carries_orFail hm e _
      | ok types => exact Carries.bind_pure rfl (hk target types)

theorem carries_popArguments (hm : m.calls.frames = f :: below) (n : Nat)
    {k : List Value → Exec Unit} {o : Outcome}
    (hk : Carries (k (f.operands n)) (m.put m.loader m.streams (f.dropped n :: below) m.log) below o) :
    Carries (do k (← onTop (Frame.popArguments n))) m below
      (if f.stack.length < n then ⟨.fail .stackUnderflow f, m.loader, m.streams⟩ else o) := by
  have hpop : Frame.popArguments n f =
      if f.stack.length < n then .error .stackUnderflow f else .ok (f.operands n) (f.dropped n) := rfl
  split
  · rename_i hlt
    rw [if_pos hlt] at hpop
    exact Carries.bind_fail (onTop_error hm hpop)
  · rename_i hge
    rw [if_neg hge] at hpop
    exact Carries.bind (onTop_ok hm hpop) hk

theorem carries_bytecode (hm : m.calls.frames = f :: below) (files : FileSystem) (target : MemberRef) :
    Carries (callBytecode files target) m below
      (Outcome.bytecode files target f m.loader m.streams) := by
  obtain ⟨log, hlog⟩ := foldl_logging_eq (m.loader.findMethod files target).events
    { m with loader := (m.loader.findMethod files target).loader }
  have hrun : onLoader (fun loader => loader.findMethod files target) m =
      match (m.loader.findMethod files target).result with
      | .ok a => .ok a (m.put (m.loader.findMethod files target).loader m.streams (f :: below) log)
      | .error stop =>
        .error stop (m.put (m.loader.findMethod files target).loader m.streams (f :: below) log) := by
    simp only [onLoader, hlog, put, ← hm]
    cases (m.loader.findMethod files target).result <;> rfl
  unfold Outcome.bytecode
  simp only
  cases h : (m.loader.findMethod files target).result with
  | error stop =>
    rw [h] at hrun
    cases stop with
    | failed e => exact Carries.bind_fail hrun
    | unfinished => exact Carries.bind_hang hrun
  | ok found =>
    obtain ⟨owner, method⟩ := found
    rw [h] at hrun
    refine Carries.bind hrun ?_
    simp only
    split
    · exact Carries.bind_fail (k := fun _ => _) rfl
    · exact carries_popArguments rfl _ (carries_pushFrame rfl _)

theorem carries_invokeStatic (hm : m.calls.frames = f :: below) (files : FileSystem)
    (inst : Instruction Nat) :
    Carries (do invokeStatic files (← orFail (Frame.indexOperand inst))) m below
      (Outcome.invokeStatic files m.natives inst f m.loader m.streams) := by
  refine carries_callSite hm inst fun target types => Carries.bind_pure rfl ?_
  cases m.natives.method? .static target.owner target.name types.length with
  | none => exact carries_bytecode hm files target
  | some action => exact carries_popArguments hm _ (carries_native rfl _ _)

theorem carries_invokeVirtual (hm : m.calls.frames = f :: below) (inst : Instruction Nat) :
    Carries (do invokeVirtual (← orFail (Frame.indexOperand inst))) m below
      (Outcome.invokeVirtual m.natives inst f m.loader m.streams) := by
  refine carries_callSite hm inst fun target types => Carries.bind_pure rfl ?_
  cases m.natives.method? .virtual target.owner target.name types.length with
  | none => exact carries_fail hm _
  | some action =>
    refine carries_popArguments hm _ ?_
    cases hd : f.stack.drop types.length with
    | nil =>
      have hpop : Frame.pop (f.dropped types.length) =
          .error .stackUnderflow (f.dropped types.length) := by
        simp only [Frame.pop, Frame.dropped, hd]
      exact Carries.bind_fail (onTop_error rfl hpop)
    | cons receiver rest =>
      have hrest : f.dropped (types.length + 1) = { f with stack := rest } := by
        simp only [Frame.dropped, ← List.drop_drop, hd, List.drop_succ_cons, List.drop_zero]
      have hpop : Frame.pop (f.dropped types.length) =
          .ok receiver (f.dropped (types.length + 1)) := by
        rw [hrest]
        simp only [Frame.pop, Frame.dropped, hd]
      exact Carries.bind (onTop_ok rfl hpop) (carries_native rfl _ _)

theorem popFrame_eq (hm : m.calls.frames = f :: below) :
    ∃ log, popFrame m = .ok () (m.put m.loader m.streams below log) := by
  have hpop : m.calls.pop? = some (f, { m.calls with frames := below }) := by
    simp only [CallStack.pop?, hm]
  obtain ⟨log, hlog⟩ := logging_eq (m.put m.loader m.streams below m.log)
    (CallStack.leftEvent f below.length)
  refine ⟨log, ?_⟩
  unfold popFrame
  rw [get_bind, hpop]
  exact congrArg (EStateM.Result.ok ()) hlog

theorem carries_returnValue (hm : m.calls.frames = f :: below) (v : Value) :
    Carries (returnValue v) m below ⟨.give v, m.loader, m.streams⟩ := by
  obtain ⟨log, hpop⟩ := popFrame_eq hm
  refine Carries.bind hpop ?_
  cases below with
  | nil => exact ⟨log, rfl⟩
  | cons caller rest => exact ⟨log, rfl⟩

/-- A computation on the frame alone, and what is done with its result. -/
theorem carries_within (hm : m.calls.frames = f :: below) {α : Type} {act : OnFrame α} {k : α → Exec Unit}
    {next : α → Frame → Effect}
    (hk : ∀ a f', Carries (k a) (m.put m.loader m.streams (f' :: below) m.log) below
      ⟨next a f', m.loader, m.streams⟩) :
    Carries (do k (← onTop act)) m below ⟨Outcome.within act next f, m.loader, m.streams⟩ := by
  unfold Outcome.within
  cases h : act f with
  | error e f' => exact Carries.bind_fail (onTop_error hm h)
  | ok a f' => exact Carries.bind (onTop_ok hm h) (hk a f')

theorem carries_execute (hm : m.calls.frames = f :: below) (files : FileSystem) (inst : Instruction Nat)
    (pc : Nat) :
    Carries (execute files inst pc) m below (outcome files m.natives inst pc f m.loader m.streams) := by
  unfold execute outcome
  cases inst.opcode.operation with
  | within op =>
    have h : Carries (onTop (Frame.perform op inst) >>= pure) m below
        ⟨Outcome.within (Frame.perform op inst) (fun _ f => .stay f) f, m.loader, m.streams⟩ :=
      carries_within hm fun _ _ => ⟨m.log, rfl⟩
    rwa [bind_pure] at h
  | getStatic => exact carries_getStatic hm inst
  | invokeStatic => exact carries_invokeStatic hm files inst
  | invokeVirtual => exact carries_invokeVirtual hm inst
  | returnVoid => exact popFrame_eq hm
  | returnInt => exact carries_within hm fun v f' => carries_returnValue rfl _
  | returnReference => exact carries_within hm fun v f' => carries_returnValue rfl _
  | unsupported =>
    have hget : onTop (get : OnFrame Frame) m = .ok f (m.put m.loader m.streams (f :: below) m.log) :=
      onTop_ok hm rfl
    rw [put_self hm] at hget
    exact Carries.bind_pure hget (carries_fail hm _)

/-! ## Steps -/

theorem stepWith_of_empty (fetch : OnFrame (Instruction Nat)) (files : FileSystem)
    (hm : m.calls.frames = []) : stepWith fetch files m = .ok false m := by
  have h : m.calls.isEmpty = true := by rw [CallStack.isEmpty, hm]; rfl
  rw [stepWith, if_pos h]

/-- The running frame reads its program counter. -/
theorem onTop_pc_eq (hm : m.calls.frames = f :: below) :
    onTop (do return (← get).pc) m = .ok f.pc m := by
  have h : onTop (do return (← get).pc) m = .ok f.pc (m.put m.loader m.streams (f :: below) m.log) :=
    onTop_ok hm rfl
  rw [h, put_self hm]

theorem stepWith_of_fetch_error (hm : m.calls.frames = f :: below) {fetch : OnFrame (Instruction Nat)}
    {e : Error} {f' : Frame} (hf : fetch f = .error e f') (files : FileSystem) :
    stepWith fetch files m =
      .error (.failed e) (m.put m.loader m.streams (f' :: below) m.log) := by
  have hadv : advanceWith fetch files m =
      .error (.failed e) (m.put m.loader m.streams (f' :: below) m.log) := by
    rw [advanceWith, bind_of_ok (onTop_pc_eq hm), bind_of_error (onTop_error hm hf)]
  rw [stepWith, if_neg (by rw [CallStack.isEmpty, hm]; simp), hadv]

/-- The first half of a step: what is left is to execute the fetched instruction. -/
theorem advanceWith_eq (hm : m.calls.frames = f :: below) {fetch : OnFrame (Instruction Nat)}
    {inst : Instruction Nat} {f' : Frame} (hf : fetch f = .ok inst f') (files : FileSystem) :
    ∃ log, advanceWith fetch files m =
      match execute files inst f.pc (m.put m.loader m.streams (f' :: below) log) with
      | .ok _ m => .ok () { m with executed := m.executed + 1 }
      | .error e m => .error e m := by
  obtain ⟨log, hlog⟩ := logging_eq (m.put m.loader m.streams (f' :: below) m.log)
    (.executing f.pc inst.opcode inst.operand)
  have hnote : note (.executing f.pc inst.opcode inst.operand)
      (m.put m.loader m.streams (f' :: below) m.log) =
        .ok () (m.put m.loader m.streams (f' :: below) log) := congrArg (EStateM.Result.ok ()) hlog
  refine ⟨log, ?_⟩
  rw [advanceWith, bind_of_ok (onTop_pc_eq hm), bind_of_ok (onTop_ok hm hf), bind_of_ok hnote]
  cases h : execute files inst f.pc (m.put m.loader m.streams (f' :: below) log) with
  | ok _ m' => rw [bind_of_ok h]; rfl
  | error e m' => rw [bind_of_error h]

/-- **A step is fetch, outcome, settle.** -/
theorem stepWith_eq (hm : m.calls.frames = f :: below) {fetch : OnFrame (Instruction Nat)}
    {inst : Instruction Nat} {f' : Frame} (hf : fetch f = .ok inst f') (files : FileSystem) :
    ∃ log, stepWith fetch files m =
      m.conclude below (outcome files m.natives inst f.pc f' m.loader m.streams) log := by
  obtain ⟨log, hadv⟩ := advanceWith_eq hm hf files
  have hc : Carries (execute files inst f.pc) (m.put m.loader m.streams (f' :: below) log) below
      (outcome files m.natives inst f.pc f' m.loader m.streams) := carries_execute rfl files inst f.pc
  have hne : ¬m.calls.isEmpty = true := by rw [CallStack.isEmpty, hm]; simp
  generalize outcome files m.natives inst f.pc f' m.loader m.streams = o at hc ⊢
  rw [stepWith, if_neg hne, hadv]
  unfold Carries at hc
  unfold conclude
  have hlimit : (m.put m.loader m.streams (f' :: below) log).calls.limit = m.calls.limit := rfl
  rw [hlimit] at hc
  cases hs : o.effect.settle m.calls.limit below with
  | none =>
    obtain ⟨m', hc⟩ := by simpa only [hs] using hc
    exact ⟨log, by rw [hc]⟩
  | some ended =>
    obtain ⟨fault, frames⟩ := ended
    cases fault with
    | none =>
      obtain ⟨log', hc⟩ := by simpa only [hs] using hc
      exact ⟨log', by rw [hc]; rfl⟩
    | some e =>
      obtain ⟨log', hc⟩ := by simpa only [hs] using hc
      exact ⟨log', by rw [hc]; rfl⟩

theorem fetch_eq (f : Frame) :
    fetch f =
      match f.fetch? with
      | .ok inst => .ok inst { f with pc := f.pc + 1 }
      | .error e => .error e f := by
  rw [fetch, bind_of_ok (show (get : OnFrame Frame) f = .ok f f from rfl)]
  cases f.fetch? <;> rfl

theorem conclude_of_settle {o : Outcome} {frames : List Frame}
    (h : o.effect.settle m.calls.limit below = some (none, frames)) (log : List Event) :
    m.conclude below o log =
      .ok true { m.put o.loader o.streams frames log with executed := m.executed + 1 } := by
  simp only [conclude, h]

/-- A step succeeds only with an outcome that settles. -/
theorem conclude_eq_ok {o : Outcome} {log : List Event} {b : Bool} {m₁ : Machine}
    (h : m.conclude below o log = .ok b m₁) :
    ∃ frames, o.effect.settle m.calls.limit below = some (none, frames) ∧
      m₁ = { m.put o.loader o.streams frames log with executed := m.executed + 1 } := by
  unfold conclude at h
  cases hs : o.effect.settle m.calls.limit below with
  | none => simp [hs] at h
  | some ended =>
    obtain ⟨fault, frames⟩ := ended
    cases fault with
    | some e => simp [hs] at h
    | none =>
      simp only [hs, EStateM.Result.ok.injEq] at h
      exact ⟨frames, rfl, h.2.symm⟩

/-- A step fails only with an outcome that settles in this error. -/
theorem conclude_eq_failed {o : Outcome} {log : List Event} {e : Error} {m₁ : Machine}
    (h : m.conclude below o log = .error (.failed e) m₁) :
    ∃ frames, o.effect.settle m.calls.limit below = some (some e, frames) ∧
      m₁ = m.put o.loader o.streams frames log := by
  unfold conclude at h
  cases hs : o.effect.settle m.calls.limit below with
  | none => simp [hs] at h
  | some ended =>
    obtain ⟨fault, frames⟩ := ended
    cases fault with
    | none => simp [hs] at h
    | some e' =>
      simp only [hs, EStateM.Result.error.injEq, Stop.failed.injEq] at h
      obtain ⟨rfl, rfl⟩ := h
      exact ⟨frames, rfl, rfl⟩

/-- `stepWith_eq` for the machine's own way to fetch. -/
theorem step_eq (hm : m.calls.frames = f :: below) {inst : Instruction Nat} (hf : f.fetch? = .ok inst)
    (files : FileSystem) :
    ∃ log, step files m =
      m.conclude below
        (outcome files m.natives inst f.pc { f with pc := f.pc + 1 } m.loader m.streams) log :=
  stepWith_eq hm (by rw [fetch_eq, hf]) files

theorem step_of_fetch_error (hm : m.calls.frames = f :: below) {e : Error} (hf : f.fetch? = .error e)
    (files : FileSystem) : step files m = .error (.failed e) m := by
  have h := stepWith_of_fetch_error hm (show fetch f = .error e f by rw [fetch_eq, hf]) files
  rwa [put_self hm] at h

end

end Machine

end Jvm
