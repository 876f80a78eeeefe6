import Jvm.Proofs.Frame.Failure
import Jvm.Proofs.Loader.Superclasses
import Jvm.Proofs.Machine.CallIsolation

/-!
# The cases of an instruction

`Outcome.Case` lists what an instruction can do, with what is known in each case, and
`outcome_case` says that there is no other. It is the one place where all instructions are gone
through: what follows about steps follows from the cases.

`Instruction.Raises` lists the errors. Among them is an operand of the wrong kind only where the
instruction has one.
-/

namespace Jvm

/-- Some native method can end in this error. -/
def NativeTable.Reports (natives : NativeTable) (e : Error) : Prop :=
  ∃ method ∈ natives.methods, ∃ call streams streams', method.action call streams = .error e streams'

theorem NativeTable.mem_of_method? {natives : NativeTable} {kind : CallKind} {owner name : String} {arity : Nat}
    {action : NativeAction} (h : natives.method? kind owner name arity = some action) :
    ∃ method ∈ natives.methods, method.action = action := by
  obtain ⟨method, hfind, haction⟩ := Option.map_eq_some_iff.1 h
  exact ⟨method, List.mem_of_find?_eq_some hfind, haction⟩

theorem NativeTable.reports_of_method? {natives : NativeTable} {kind : CallKind} {owner name : String} {arity : Nat}
    {action : NativeAction} (h : natives.method? kind owner name arity = some action) {call : NativeCall}
    {streams streams' : Streams} {e : Error} (herror : action call streams = .error e streams') :
    natives.Reports e := by
  obtain ⟨method, hmem, rfl⟩ := mem_of_method? h
  exact ⟨method, hmem, call, streams, streams', herror⟩

/-- The errors that an instruction can end in. -/
inductive Instruction.Raises (natives : NativeTable) (inst : Instruction Nat) : Error → Prop
  | within {op : FrameOperation} {e : Error} : inst.opcode.operation = .within op → op.Raises inst e →
      Raises natives inst e
  | misfit {kind : Operand.Kind} {e : Error} : inst.opcode.operation.needs = some kind → inst.Misfits kind e →
      Raises natives inst e
  | stackUnderflow : Raises natives inst .stackUnderflow
  | typeMismatch (expected : ValueKind) (found : Value) : Raises natives inst (.typeMismatch expected found)
  | malformedReference (index : UInt16) (expected : EntryKind) :
      Raises natives inst (.defect (.malformedReference index expected))
  | invalidDescriptor (descriptor : String) : Raises natives inst (.defect (.invalidDescriptor descriptor))
  | wideArguments (descriptor : String) : Raises natives inst (.unsupported (.wideArguments descriptor))
  | staticField (owner name : String) : Raises natives inst (.unsupported (.staticField owner name))
  | staticCall (owner method descriptor : String) :
      Raises natives inst (.unsupported (.staticCall owner method descriptor))
  | virtualCall (target : MemberRef) : Raises natives inst (.unsupported (.virtualCall target))
  | unsupportedOpcode (opcode : Opcode) (owner method : String) (pc : Nat) :
      Raises natives inst (.unsupportedOpcode opcode owner method pc)
  | methodNotFound (owner name descriptor : String) : Raises natives inst (.methodNotFound owner name descriptor)
  | classNotFound (name : String) (misses : List Miss) : Raises natives inst (.classNotFound name misses)
  | stackOverflow (limit : Nat) : Raises natives inst (.stackOverflow limit)
  | native {e : Error} : natives.Reports e → Raises natives inst e

/-- The loader after an instruction: only a call looks for a method, and for one at most. -/
inductive Loader.Asked (files : FileSystem) (loader : Loader) : Loader → Prop
  | nothing : Asked files loader loader
  | method (target : MemberRef) : Asked files loader (loader.findMethod files target).loader

theorem Loader.Asked.extends {files : FileSystem} {loader later : Loader} (h : Asked files loader later) :
    loader.Extends later := by
  cases h with
  | nothing => exact .refl loader
  | method target => exact extends_findMethod files loader target

theorem Loader.Asked.used {files : FileSystem} {loader later : Loader} (h : Asked files loader later)
    (hl : loader.Used) : later.Used := by
  cases h with
  | nothing => exact hl
  | method target => exact hl.findMethod files target

/-- The instruction returns the value on top of the stack, and it is of the type that it returns. -/
inductive Frame.Gives (f : Frame) (inst : Instruction Nat) : Value → Prop
  | int {i : Int32} {rest : List Value} : inst.opcode = .ireturn → f.stack = .int i :: rest →
      Gives f inst (.int i)
  | reference {v : Value} {rest : List Value} : inst.opcode = .areturn → f.stack = v :: rest →
      v.asReference = .ok v → Gives f inst v

/-- What an instruction can do to the frame `f`, with its counter already moved on. -/
inductive Outcome.Case (files : FileSystem) (natives : NativeTable) (inst : Instruction Nat) (f : Frame)
    (loader : Loader) : Outcome → Prop
  | stay {f' : Frame} {streams : Streams} : f.Advances inst f' →
      Case files natives inst f loader ⟨.stay f', loader, streams⟩
  | call {target : MemberRef} {types : List FieldType} {owner : Class} {method : Method} {streams : Streams} :
      inst.opcode = .invokestatic → f.callSite inst = .ok (target, types) →
      (loader.findMethod files target).result = .ok (owner, method) → method.isStatic = true →
      method.code.isSome = true → method.argumentCount ≤ f.stack.length →
      Case files natives inst f loader
        ⟨.call (f.dropped method.argumentCount) (.ofCall owner method (f.operands method.argumentCount)),
          (loader.findMethod files target).loader, streams⟩
  | leave {streams : Streams} : inst.opcode = .ret → Case files natives inst f loader ⟨.leave, loader, streams⟩
  | give {v : Value} {streams : Streams} : f.Gives inst v →
      Case files natives inst f loader ⟨.give v, loader, streams⟩
  | fail {e : Error} {f' : Frame} {later : Loader} {streams : Streams} : f.Spends f' → inst.Raises natives e →
      loader.Asked files later → (∀ v, ¬f.Gives inst v) →
      Case files natives inst f loader ⟨.fail e f', later, streams⟩
  | hang {target : MemberRef} {types : List FieldType} {streams : Streams} : inst.opcode = .invokestatic →
      f.callSite inst = .ok (target, types) → (loader.findMethod files target).result = .error .unfinished →
      Case files natives inst f loader ⟨.hang, (loader.findMethod files target).loader, streams⟩

section
variable {files : FileSystem} {natives : NativeTable} {inst : Instruction Nat} {f g : Frame} {loader : Loader}

theorem Outcome.Case.asked {o : Outcome} (h : Case files natives inst f loader o) : loader.Asked files o.loader := by
  cases h with
  | stay | leave | give => exact .nothing
  | call | hang => exact .method _
  | fail _ _ hasked => exact hasked

theorem Frame.spends_dropped (f : Frame) (n : Nat) : f.Spends (f.dropped n) :=
  spends_of_suffix (List.drop_suffix n f.stack)

theorem Frame.Spends.advances (h : f.Spends g) : f.Advances inst g := ⟨h.continues, .inl h.pc⟩

theorem Frame.Spends.advances_pushed (h : f.Spends g) (v : Value) : f.Advances inst (g.pushed v) :=
  ⟨⟨h.owner, h.method, congrArg Array.size h.locals⟩, .inl h.pc⟩

/-- Only the return instructions return a value. -/
theorem Frame.not_gives (hint : inst.opcode ≠ .ireturn) (hreference : inst.opcode ≠ .areturn) (v : Value) :
    ¬f.Gives inst v := by
  intro h
  cases h with
  | int hop => exact hint hop
  | reference hop => exact hreference hop

theorem Frame.not_gives_of_operation (hint : inst.opcode.operation ≠ .returnInt)
    (hreference : inst.opcode.operation ≠ .returnReference) (v : Value) : ¬f.Gives inst v := by
  refine not_gives ?_ ?_ v
  · rintro hop
    rw [hop] at hint
    exact hint rfl
  · rintro hop
    rw [hop] at hreference
    exact hreference rfl

theorem Frame.Gives.exists_int {v : Value} (h : f.Gives inst v) (hop : inst.opcode = .ireturn) :
    ∃ i rest, f.stack = .int i :: rest := by
  cases h with
  | int _ hstack => exact ⟨_, _, hstack⟩
  | reference hother =>
    rw [hop] at hother
    cases hother

theorem Frame.Gives.exists_reference {v : Value} (h : f.Gives inst v) (hop : inst.opcode = .areturn) :
    ∃ rest, f.stack = v :: rest ∧ v.asReference = .ok v := by
  cases h with
  | int hother =>
    rw [hop] at hother
    cases hother
  | reference _ hstack hv => exact ⟨_, hstack, hv⟩

theorem Frame.asReference_of_popReference {v : Value} (h : popReference f = .ok v g) : v.asReference = .ok v := by
  obtain ⟨hstack, -⟩ := popReference_ok h
  rw [popReference_eq, hstack] at h
  cases v with
  | int i => cases h
  | _ => rfl

/-! ## Errors of the parts -/

namespace ConstantPool
variable {pool : ConstantPool} {index : UInt16} {d : Defect}

theorem utf8_error (h : pool.utf8 index = .error d) : ∃ i kind, d = .malformedReference i kind := by
  unfold utf8 at h
  split at h <;> cases h
  exact ⟨_, _, rfl⟩

theorem className_error (h : pool.className index = .error d) : ∃ i kind, d = .malformedReference i kind := by
  unfold className at h
  split at h
  · exact utf8_error h
  · cases h
    exact ⟨_, _, rfl⟩

theorem nameAndType_error (h : pool.nameAndType index = .error d) : ∃ i kind, d = .malformedReference i kind := by
  unfold nameAndType at h
  split at h
  · rcases error_of_bind_error h with hname | ⟨name, -, h⟩
    · exact utf8_error hname
    · rcases error_of_bind_error h with hdescriptor | ⟨descriptor, -, h⟩
      · exact utf8_error hdescriptor
      · cases h
  · cases h
    exact ⟨_, _, rfl⟩

theorem member_error {owner nameAndType : UInt16} (h : pool.member owner nameAndType = .error d) :
    ∃ i kind, d = .malformedReference i kind := by
  rcases error_of_bind_error h with howner | ⟨name, -, h⟩
  · exact className_error howner
  · rcases error_of_bind_error h with hrest | ⟨pair, -, h⟩
    · exact nameAndType_error hrest
    · cases h

theorem field_error (h : pool.field index = .error d) : ∃ i kind, d = .malformedReference i kind := by
  unfold field at h
  split at h
  · exact member_error h
  · cases h
    exact ⟨_, _, rfl⟩

theorem method_error (h : pool.method index = .error d) : ∃ i kind, d = .malformedReference i kind := by
  unfold method at h
  split at h
  · exact member_error h
  · exact member_error h
  · cases h
    exact ⟨_, _, rfl⟩

end ConstantPool

namespace Instruction

theorem raises_of_reference {α : Type} {r : Except Defect α} {e : Error}
    (hr : ∀ d, r = .error d → ∃ i kind, d = .malformedReference i kind) (h : r.mapError .defect = .error e) :
    inst.Raises natives e := by
  obtain ⟨d, hd, rfl⟩ := exists_of_mapError_error h
  obtain ⟨i, kind, rfl⟩ := hr d hd
  exact .malformedReference i kind

theorem raises_of_callTypes {descriptor : String} {e : Error} (h : Machine.callTypes descriptor = .error e) :
    inst.Raises natives e := by
  unfold Machine.callTypes at h
  split at h
  · cases h
    exact .invalidDescriptor descriptor
  · split at h
    · cases h
      exact .wideArguments descriptor
    · cases h

theorem raises_of_callSite {e : Error} (hneeds : inst.opcode.operation.needs = some .index)
    (h : f.callSite inst = .error e) : inst.Raises natives e := by
  rcases error_of_bind_error h with hindex | ⟨index, -, h⟩
  · exact .misfit hneeds (Frame.indexOperand_error hindex)
  · rcases error_of_bind_error h with htarget | ⟨target, -, h⟩
    · exact raises_of_reference (fun _ => ConstantPool.method_error) htarget
    · rcases error_of_bind_error h with htypes | ⟨types, -, h⟩
      · exact raises_of_callTypes htypes
      · cases h

theorem raises_of_staticField {e : Error} (hneeds : inst.opcode.operation.needs = some .index)
    (h : f.staticField natives inst = .error e) : inst.Raises natives e := by
  rcases error_of_bind_error h with hindex | ⟨index, -, h⟩
  · exact .misfit hneeds (Frame.indexOperand_error hindex)
  · rcases error_of_bind_error h with hfield | ⟨field, -, h⟩
    · exact raises_of_reference (fun _ => ConstantPool.field_error) hfield
    · split at h <;> cases h
      exact .staticField _ _

/-- A search for a method that ends without one. -/
theorem raises_of_findMethod {target : MemberRef} {e : Error}
    (h : (loader.findMethod files target).result = .error (.failed e)) : inst.Raises natives e := by
  rcases Loader.findMethod_ends files loader target with hends | hmore
  · rw [h] at hends
    cases hends with
    | methodNotFound => exact .methodNotFound _ _ _
    | classNotFound name misses => exact .classNotFound name misses
  · rw [h] at hmore
    cases hmore

end Instruction

/-! ## The instructions -/

namespace Outcome

theorem native_case {action : NativeAction} {call : NativeCall} {streams : Streams} (hg : f.Spends g)
    (hgives : ∀ v, ¬f.Gives inst v)
    (hreports : ∀ e streams', action call streams = .error e streams' → natives.Reports e) :
    Case files natives inst f loader (native action call g loader streams) := by
  unfold native
  cases h : action call streams with
  | error e streams' => exact .fail hg (.native (hreports e streams' h)) .nothing hgives
  | ok result streams' =>
    cases result with
    | none => exact .stay hg.advances
    | some v => exact .stay (hg.advances_pushed v)

theorem bytecode_case {target : MemberRef} {types : List FieldType} (hop : inst.opcode = .invokestatic)
    (hsite : f.callSite inst = .ok (target, types)) (hgives : ∀ v, ¬f.Gives inst v) (streams : Streams) :
    Case files natives inst f loader (bytecode files target f loader streams) := by
  unfold bytecode
  simp only
  cases h : (loader.findMethod files target).result with
  | error stop =>
    cases stop with
    | failed e => exact .fail (.refl f) (Instruction.raises_of_findMethod h) (.method target) hgives
    | unfinished => exact .hang hop hsite h
  | ok found =>
    obtain ⟨owner, method⟩ := found
    simp only
    split
    · exact .fail (.refl f) (.staticCall _ _ _) (.method target) hgives
    · rename_i hcallable
      split
      · exact .fail (.refl f) .stackUnderflow (.method target) hgives
      · rename_i henough
        simp only [Bool.or_eq_true, Bool.not_eq_true', Option.isNone_iff_eq_none, not_or,
          Bool.not_eq_false, ← Option.isSome_iff_ne_none] at hcallable
        exact .call hop hsite h hcallable.1 hcallable.2 (Nat.le_of_not_lt henough)

theorem invokeStatic_case (hop : inst.opcode.operation = .invokeStatic) (streams : Streams) :
    Case files natives inst f loader (invokeStatic files natives inst f loader streams) := by
  have hneeds : inst.opcode.operation.needs = some .index := by rw [hop]; rfl
  have hgives : ∀ v, ¬f.Gives inst v := Frame.not_gives_of_operation (by simp [hop]) (by simp [hop])
  unfold invokeStatic
  cases hsite : f.callSite inst with
  | error e => exact .fail (.refl f) (Instruction.raises_of_callSite hneeds hsite) .nothing hgives
  | ok site =>
    obtain ⟨target, types⟩ := site
    simp only
    cases hnative : natives.method? .static target.owner target.name types.length with
    | none => exact bytecode_case (Opcode.eq_invokestatic hop) hsite hgives streams
    | some action =>
      simp only
      split
      · exact .fail (.refl f) .stackUnderflow .nothing hgives
      · exact native_case (f.spends_dropped _) hgives fun e streams' => NativeTable.reports_of_method? hnative

theorem invokeVirtual_case (hop : inst.opcode.operation = .invokeVirtual) (streams : Streams) :
    Case files natives inst f loader (invokeVirtual natives inst f loader streams) := by
  have hneeds : inst.opcode.operation.needs = some .index := by rw [hop]; rfl
  have hgives : ∀ v, ¬f.Gives inst v := Frame.not_gives_of_operation (by simp [hop]) (by simp [hop])
  unfold invokeVirtual
  cases hsite : f.callSite inst with
  | error e => exact .fail (.refl f) (Instruction.raises_of_callSite hneeds hsite) .nothing hgives
  | ok site =>
    obtain ⟨target, types⟩ := site
    simp only
    cases hnative : natives.method? .virtual target.owner target.name types.length with
    | none => exact .fail (.refl f) (.virtualCall target) .nothing hgives
    | some action =>
      simp only
      split
      · exact .fail (.refl f) .stackUnderflow .nothing hgives
      · split
        · exact .fail (f.spends_dropped _) .stackUnderflow .nothing hgives
        · exact native_case (f.spends_dropped _) hgives fun e streams' => NativeTable.reports_of_method? hnative

/-- A value is taken off the stack and returned. -/
theorem give_case {α : Type} {act : OnFrame α} {value : α → Value} {streams : Streams}
    (hok : ∀ a g, act f = .ok a g → f.Gives inst (value a))
    (herror : ∀ e g, act f = .error e g → f.Spends g ∧ inst.Raises natives e ∧ ∀ v, ¬f.Gives inst v) :
    Case files natives inst f loader ⟨within act (fun a _ => .give (value a)) f, loader, streams⟩ := by
  unfold within
  cases h : act f with
  | ok a g => exact .give (hok a g h)
  | error e g =>
    obtain ⟨hspends, hraises, hgives⟩ := herror e g h
    exact .fail hspends hraises .nothing hgives

theorem returnInt_case (hop : inst.opcode = .ireturn) (streams : Streams) :
    Case files natives inst f loader ⟨within Frame.popInt (fun v _ => .give (.int v)) f, loader, streams⟩ := by
  refine give_case (fun i g h => .int hop (Frame.popInt_ok h).1) fun e g h => ?_
  have htakes : Frame.Takes (inst.Raises natives) Frame.popInt := Frame.takes_popInt .stackUnderflow .typeMismatch
  obtain ⟨hspends, hraises⟩ := htakes.of_error h
  refine ⟨hspends, hraises, fun v hgives => ?_⟩
  obtain ⟨i, rest, hstack⟩ := hgives.exists_int hop
  rw [Frame.popInt_eq, hstack] at h
  cases h

theorem returnReference_case (hop : inst.opcode = .areturn) (streams : Streams) :
    Case files natives inst f loader ⟨within Frame.popReference (fun v _ => .give v) f, loader, streams⟩ := by
  refine give_case (fun v g h => .reference hop (Frame.popReference_ok h).1 (Frame.asReference_of_popReference h))
    fun e g h => ?_
  have htakes : Frame.Takes (inst.Raises natives) Frame.popReference :=
    Frame.takes_popReference .stackUnderflow .typeMismatch
  obtain ⟨hspends, hraises⟩ := htakes.of_error h
  refine ⟨hspends, hraises, fun v hgives => ?_⟩
  obtain ⟨rest, hstack, hv⟩ := hgives.exists_reference hop
  rw [Frame.popReference_eq, hstack] at h
  simp only [hv] at h
  cases h

theorem perform_case {op : FrameOperation} (hop : inst.opcode.operation = .within op) (streams : Streams) :
    Case files natives inst f loader ⟨within (Frame.perform op inst) (fun _ f => .stay f) f, loader, streams⟩ := by
  have hgives : ∀ v, ¬f.Gives inst v := Frame.not_gives_of_operation (by simp [hop]) (by simp [hop])
  have hends := Frame.perform_ends op inst f
  unfold within
  cases h : Frame.perform op inst f with
  | ok a g =>
    rw [h] at hends
    exact .stay hends
  | error e g =>
    rw [h] at hends
    exact .fail hends.1 (.within hop hends.2) .nothing hgives

theorem getStatic_case (hop : inst.opcode.operation = .getStatic) (streams : Streams) :
    Case files natives inst f loader
      (match f.staticField natives inst with
        | .ok v => ⟨.stay (f.pushed v), loader, streams⟩
        | .error e => ⟨.fail e f, loader, streams⟩) := by
  have hgives : ∀ v, ¬f.Gives inst v := Frame.not_gives_of_operation (by simp [hop]) (by simp [hop])
  cases h : f.staticField natives inst with
  | ok v => exact .stay ((Frame.Spends.refl f).advances_pushed v)
  | error e => exact .fail (.refl f) (Instruction.raises_of_staticField (by rw [hop]; rfl) h) .nothing hgives

end Outcome

/-- **There are no other cases.** -/
theorem outcome_case (files : FileSystem) (natives : NativeTable) (inst : Instruction Nat) (pc : Nat) (f : Frame)
    (loader : Loader) (streams : Streams) :
    Outcome.Case files natives inst f loader (outcome files natives inst pc f loader streams) := by
  unfold outcome
  cases hop : inst.opcode.operation with
  | within op => exact Outcome.perform_case hop streams
  | getStatic => exact Outcome.getStatic_case hop streams
  | invokeStatic => exact Outcome.invokeStatic_case hop streams
  | invokeVirtual => exact Outcome.invokeVirtual_case hop streams
  | returnVoid => exact .leave (Opcode.eq_ret hop)
  | returnInt => exact Outcome.returnInt_case (Opcode.eq_ireturn hop) streams
  | returnReference => exact Outcome.returnReference_case (Opcode.eq_areturn hop) streams
  | unsupported =>
    have hgives : ∀ v, ¬f.Gives inst v := Frame.not_gives_of_operation (by simp [hop]) (by simp [hop])
    exact .fail (.refl f) (.unsupportedOpcode _ _ _ _) .nothing hgives

end

/-! ## Steps -/

namespace Machine

/-- How a step fails that executes the frame `f` above the frames `below`, with the loader and the
frames that it leaves. -/
inductive StepFailure (files : FileSystem) (m : Machine) (f : Frame) (below : List Frame) :
    Error → Loader → List Frame → Prop
  | fetch {e : Error} : f.fetch? = .error e → StepFailure files m f below e m.loader (f :: below)
  | raised {inst : Instruction Nat} {e : Error} {f' : Frame} {later : Loader} : f.fetch? = .ok inst →
      Frame.Spends { f with pc := f.pc + 1 } f' → inst.Raises m.natives e → m.loader.Asked files later →
      (∀ v, ¬Frame.Gives { f with pc := f.pc + 1 } inst v) →
      StepFailure files m f below e later (f' :: below)
  | noCaller {inst : Instruction Nat} {v : Value} : f.fetch? = .ok inst →
      Frame.Gives { f with pc := f.pc + 1 } inst v → below = [] →
      StepFailure files m f below (.invalidFrameAccess .noCaller) m.loader []

variable {m m' : Machine} {f : Frame} {below : List Frame}

/-- A step either cannot fetch, or has one of the outcomes. -/
theorem step_cases (hm : m.calls.frames = f :: below) (files : FileSystem) :
    (∃ e, f.fetch? = .error e ∧ step files m = .error (.failed e) m) ∨
      ∃ inst o log, f.fetch? = .ok inst ∧
        Outcome.Case files m.natives inst { f with pc := f.pc + 1 } m.loader o ∧
        step files m = m.conclude below o log := by
  cases hfetch : f.fetch? with
  | error e => exact .inl ⟨e, rfl, step_of_fetch_error hm hfetch files⟩
  | ok inst =>
    obtain ⟨log, hstep⟩ := step_eq hm hfetch files
    exact .inr ⟨inst, _, log, rfl, outcome_case files m.natives inst f.pc _ m.loader m.streams, hstep⟩

/-- An outcome that settles in an error. -/
theorem stepFailure_of_case {files : FileSystem} {inst : Instruction Nat} {o : Outcome} {e : Error}
    {frames : List Frame} (hfetch : f.fetch? = .ok inst)
    (hcase : Outcome.Case files m.natives inst { f with pc := f.pc + 1 } m.loader o)
    (hsettle : o.effect.settle m.calls.limit below = some (some e, frames)) :
    StepFailure files m f below e o.loader frames := by
  cases hcase with
  | stay | leave | hang => simp [Effect.settle] at hsettle
  | call hop =>
    by_cases hlimit : m.calls.limit ≤ below.length + 1
    · simp only [Effect.settle, if_pos hlimit, Option.some.injEq, Prod.mk.injEq] at hsettle
      obtain ⟨rfl, rfl⟩ := hsettle
      have hgives : ∀ v, ¬Frame.Gives { f with pc := f.pc + 1 } inst v :=
        Frame.not_gives (by simp [hop]) (by simp [hop])
      exact .raised hfetch (Frame.spends_dropped _ _) (.stackOverflow _) (.method _) hgives
    · simp [Effect.settle, hlimit] at hsettle
  | give hgives =>
    cases below with
    | nil =>
      simp only [Effect.settle, Option.some.injEq, Prod.mk.injEq] at hsettle
      obtain ⟨rfl, rfl⟩ := hsettle
      exact .noCaller hfetch hgives rfl
    | cons caller rest => simp [Effect.settle] at hsettle
  | fail hspends hraises hasked hgives =>
    simp only [Effect.settle, Option.some.injEq, Prod.mk.injEq] at hsettle
    obtain ⟨rfl, rfl⟩ := hsettle
    exact .raised hfetch hspends hraises hasked hgives

/-- **A step that fails** has counted nothing, and has failed in one of these ways. -/
theorem stepFailure_of_step {files : FileSystem} {e : Error} (hm : m.calls.frames = f :: below)
    (h : step files m = .error (.failed e) m') :
    m'.executed = m.executed ∧ StepFailure files m f below e m'.loader m'.calls.frames := by
  rcases step_cases hm files with ⟨e', hfetch, hstep⟩ | ⟨inst, o, log, hfetch, hcase, hstep⟩
  · cases hstep.symm.trans h
    rw [hm]
    exact ⟨rfl, .fetch hfetch⟩
  · obtain ⟨frames, hsettle, rfl⟩ := conclude_eq_failed (hstep.symm.trans h)
    exact ⟨rfl, stepFailure_of_case hfetch hcase hsettle⟩

/-- A machine without frames does not fail. -/
theorem exists_frame_of_step {files : FileSystem} {stop : Stop} (h : step files m = .error stop m') :
    ∃ f below, m.calls.frames = f :: below := by
  cases hm : m.calls.frames with
  | nil =>
    rw [step_eq_stepWith, stepWith_of_empty fetch files hm] at h
    cases h
  | cons f below => exact ⟨f, below, rfl⟩

end Machine

end Jvm
