import Jvm.Proofs.Loader.Resolution
import Jvm.Proofs.Machine.Reachable

/-!
# Static calls

A static call needs a number of things, and looks for them one after the other. `Callable` has all of them;
`Refuses` says for each one what the call ends in if it is the first that is missing.

A call of bytecode does one of three things: it goes through (`step_of_callable`), it fails
(`step_of_refuses`), or it goes on for ever, where the reference stands for nothing (`step_of_endless`).
`callable_or_refuses` says that there is nothing else. Main theorem `static_call`.
-/

namespace Jvm

/-! ## Call sites -/

/-- The frame's class has, in slot `index`, a method with parameters of these types that can be called. -/
structure Frame.Names (f : Frame) (index : UInt16) (target : MemberRef) (types : List FieldType) : Prop where
  reference : f.owner.pool.method index = .ok target
  descriptor : ∃ result, MethodType.ofDescriptor? target.descriptor = some ⟨types, result⟩
  /-- Values are one word wide. -/
  narrow : ∀ type ∈ types, type.isWide = false

/-- Why slot `index` names no such method. -/
inductive Frame.Nameless (f : Frame) (index : UInt16) : Error → Prop
  | reference {d : Defect} : f.owner.pool.method index = .error d → Nameless f index (.defect d)
  | descriptor {target : MemberRef} : f.owner.pool.method index = .ok target →
      MethodType.ofDescriptor? target.descriptor = none →
      Nameless f index (.defect (.invalidDescriptor target.descriptor))
  | wide {target : MemberRef} {type : MethodType} : f.owner.pool.method index = .ok target →
      MethodType.ofDescriptor? target.descriptor = some type → (∃ t ∈ type.parameters, t.isWide = true) →
      Nameless f index (.unsupported (.wideArguments target.descriptor))

section
variable {f : Frame} {inst : Instruction Nat} {index : UInt16} {target : MemberRef} {types : List FieldType} {e : Error}

theorem Frame.callSite_of_index (hindex : inst.operand = .index index) :
    f.callSite inst = (f.owner.pool.method index).mapError .defect >>= fun target =>
      (Machine.callTypes target.descriptor).map (target, ·) := by
  simp only [callSite, indexOperand, hindex]
  rfl

theorem Frame.Names.callTypes_eq (h : f.Names index target types) :
    Machine.callTypes target.descriptor = .ok types := by
  obtain ⟨result, htype⟩ := h.descriptor
  have hnarrow : ¬types.any (·.isWide) = true := by
    simp only [List.any_eq_true, not_exists, not_and, Bool.not_eq_true]
    exact h.narrow
  simp only [Machine.callTypes, htype, if_neg hnarrow]

theorem Frame.Names.callSite_eq (h : f.Names index target types) (hindex : inst.operand = .index index) :
    f.callSite inst = .ok (target, types) := by
  rw [callSite_of_index hindex, h.reference]
  show (Machine.callTypes target.descriptor).map _ = _
  rw [h.callTypes_eq]
  rfl

/-- Either the slot refers to no method, or the descriptor is of no use. -/
theorem Frame.Nameless.reference_or_types (h : f.Nameless index e) :
    (∃ d, f.owner.pool.method index = .error d ∧ e = .defect d) ∨
      ∃ target, f.owner.pool.method index = .ok target ∧ Machine.callTypes target.descriptor = .error e := by
  cases h with
  | reference hreference => exact .inl ⟨_, hreference, rfl⟩
  | @descriptor target hreference htype =>
    refine .inr ⟨target, hreference, ?_⟩
    simp only [Machine.callTypes, htype]
  | @wide target type hreference htype hwide =>
    have hany : type.parameters.any (·.isWide) = true := List.any_eq_true.2 hwide
    refine .inr ⟨target, hreference, ?_⟩
    simp only [Machine.callTypes, htype, if_pos hany]

theorem Frame.Nameless.callSite_eq (h : f.Nameless index e) (hindex : inst.operand = .index index) :
    f.callSite inst = .error e := by
  rw [callSite_of_index hindex]
  rcases h.reference_or_types with ⟨d, hreference, rfl⟩ | ⟨target, hreference, htypes⟩
  · rw [hreference]
    rfl
  · rw [hreference]
    show (Machine.callTypes target.descriptor).map _ = _
    rw [htypes]
    rfl

/-- A slot names a method, or there is a reason why it does not. -/
theorem Frame.names_or_nameless (f : Frame) (index : UInt16) :
    (∃ target types, f.Names index target types) ∨ ∃ e, f.Nameless index e := by
  cases hreference : f.owner.pool.method index with
  | error d => exact .inr ⟨_, .reference hreference⟩
  | ok target =>
    cases htype : MethodType.ofDescriptor? target.descriptor with
    | none => exact .inr ⟨_, .descriptor hreference htype⟩
    | some type =>
      by_cases hwide : ∃ t ∈ type.parameters, t.isWide = true
      · exact .inr ⟨_, .wide hreference htype hwide⟩
      · simp only [not_exists, not_and, Bool.not_eq_true] at hwide
        exact .inl ⟨target, type.parameters, hreference, ⟨type.result, htype⟩, hwide⟩

/-- A slot names one method at most. -/
theorem Frame.Names.unique {target' : MemberRef} {types' : List FieldType} (h : f.Names index target types)
    (h' : f.Names index target' types') : target = target' ∧ types = types' := by
  cases h.reference.symm.trans h'.reference
  obtain ⟨result, htype⟩ := h.descriptor
  obtain ⟨result', htype'⟩ := h'.descriptor
  cases htype.symm.trans htype'
  exact ⟨rfl, rfl⟩

end

/-! ## The frame of a call -/

/-- The first frame of a call: nothing is executed yet, the arguments stand in the first locals, and the
others are null. -/
structure Frame.Begins (callee : Frame) (owner : Class) (method : Method) (arguments : List Value) : Prop where
  ofClass : callee.owner = owner
  ofMethod : callee.method = method
  start : callee.pc = 0
  empty : callee.stack = []
  size : callee.locals.size = max method.maxLocals.toNat arguments.length
  holds : ∀ j < arguments.length, callee.locals[j]? = arguments[j]?
  null : ∀ j, arguments.length ≤ j → j < method.maxLocals.toNat → callee.locals[j]? = some .null

theorem Frame.begins_ofCall (owner : Class) (method : Method) (arguments : List Value) :
    (ofCall owner method arguments).Begins owner method arguments where
  ofClass := rfl
  ofMethod := rfl
  start := rfl
  empty := rfl
  size := size_ofCall owner method arguments
  holds j hj := by
    simp only [ofCall, List.getElem?_toArray]
    exact List.getElem?_append_left hj
  null j hle hj := by
    simp only [ofCall, List.getElem?_toArray]
    rw [List.getElem?_append_right hle, List.getElem?_replicate, if_pos (by omega)]

/-- The frame has gone on to its next instruction. -/
def Frame.moved (f : Frame) : Frame := { f with pc := f.pc + 1 }

/-- What a slot names does not depend on where the frame is. -/
theorem Frame.names_moved_iff {f : Frame} {index : UInt16} {target : MemberRef} {types : List FieldType} :
    f.moved.Names index target types ↔ f.Names index target types :=
  ⟨fun ⟨hreference, hdescriptor, hnarrow⟩ => ⟨hreference, hdescriptor, hnarrow⟩,
    fun ⟨hreference, hdescriptor, hnarrow⟩ => ⟨hreference, hdescriptor, hnarrow⟩⟩

theorem Frame.Nameless.moved {f : Frame} {index : UInt16} {e : Error} (h : f.Nameless index e) :
    f.moved.Nameless index e := by
  cases h with
  | reference hreference => exact .reference hreference
  | descriptor hreference htype => exact .descriptor hreference htype
  | wide hreference htype hwide => exact .wide hreference htype hwide

/-! ## What a static call needs -/

namespace Machine

/-- The running frame `f` can call the static method that slot `index` of its class names: it is `method`,
and `owner` declares it. -/
structure Callable (files : FileSystem) (m : Machine) (f : Frame) (index : UInt16) (target : MemberRef)
    (types : List FieldType) (owner : Class) (method : Method) : Prop where
  names : f.Names index target types
  resolves : m.loader.Resolves files target (.ok (owner, method))
  static : method.isStatic = true
  code : method.code.isSome = true
  operands : types.length ≤ f.stack.length
  room : m.calls.depth < m.calls.limit

/-- The first thing that a static call lacks: the error, the loader, and the running frame as it is left. -/
inductive Refuses (files : FileSystem) (m : Machine) (f : Frame) (index : UInt16) : Error → Loader → Frame → Prop
  | nameless {e : Error} : f.Nameless index e → Refuses files m f index e m.loader f.moved
  | unresolved {target : MemberRef} {types : List FieldType} {e : Error} : f.Names index target types →
      m.loader.Resolves files target (.error e) →
      Refuses files m f index e (m.loader.findMethod files target).loader f.moved
  | kind {target : MemberRef} {types : List FieldType} {owner : Class} {method : Method} :
      f.Names index target types → m.loader.Resolves files target (.ok (owner, method)) →
      ¬(method.isStatic = true ∧ method.code.isSome = true) →
      Refuses files m f index (.unsupported (.staticCall owner.name method.name method.descriptor))
        (m.loader.findMethod files target).loader f.moved
  | operands {target : MemberRef} {types : List FieldType} {owner : Class} {method : Method} :
      f.Names index target types → m.loader.Resolves files target (.ok (owner, method)) → method.isStatic = true →
      method.code.isSome = true → f.stack.length < types.length →
      Refuses files m f index .stackUnderflow (m.loader.findMethod files target).loader f.moved
  /-- The arguments are gone by then. -/
  | room {target : MemberRef} {types : List FieldType} {owner : Class} {method : Method} :
      f.Names index target types → m.loader.Resolves files target (.ok (owner, method)) → method.isStatic = true →
      method.code.isSome = true → types.length ≤ f.stack.length → m.calls.limit ≤ m.calls.depth →
      Refuses files m f index (.stackOverflow m.calls.limit) (m.loader.findMethod files target).loader
        (f.moved.dropped types.length)

/-- The reference stands for nothing, not even an error. -/
structure Endless (files : FileSystem) (m : Machine) (f : Frame) (index : UInt16) (target : MemberRef)
    (types : List FieldType) : Prop where
  names : f.Names index target types
  unresolved : ∀ result, ¬m.loader.Resolves files target result

section
variable {files : FileSystem} {m m' : Machine} {f : Frame} {below : List Frame} {inst : Instruction Nat}
  {index : UInt16} {target : MemberRef} {types : List FieldType} {owner : Class} {method : Method}

/-- **There is nothing else.** -/
theorem callable_or_refuses (files : FileSystem) (m : Machine) (f : Frame) (index : UInt16) :
    (∃ target types owner method, Callable files m f index target types owner method) ∨
      (∃ e later caller, Refuses files m f index e later caller) ∨
        ∃ target types, Endless files m f index target types := by
  rcases f.names_or_nameless index with ⟨target, types, hnames⟩ | ⟨e, hnameless⟩
  · by_cases hresolves : ∃ result, m.loader.Resolves files target result
    · obtain ⟨result, hresolves⟩ := hresolves
      cases result with
      | error e => exact .inr (.inl ⟨_, _, _, .unresolved hnames hresolves⟩)
      | ok found =>
        obtain ⟨owner, method⟩ := found
        by_cases hkind : method.isStatic = true ∧ method.code.isSome = true
        · obtain ⟨hstatic, hcode⟩ := hkind
          rcases Nat.lt_or_ge f.stack.length types.length with hfew | henough
          · exact .inr (.inl ⟨_, _, _, .operands hnames hresolves hstatic hcode hfew⟩)
          · rcases Nat.lt_or_ge m.calls.depth m.calls.limit with hroom | hfull
            · exact .inl ⟨target, types, owner, method, hnames, hresolves, hstatic, hcode, henough, hroom⟩
            · exact .inr (.inl ⟨_, _, _, .room hnames hresolves hstatic hcode henough hfull⟩)
        · exact .inr (.inl ⟨_, _, _, .kind hnames hresolves hkind⟩)
    · exact .inr (.inr ⟨target, types, hnames, not_exists.1 hresolves⟩)
  · exact .inr (.inl ⟨_, _, _, .nameless hnameless⟩)

/-- The parameters of the method are those of the call site. -/
theorem argumentCount_of_resolves (hl : m.loader.Used) (hnames : f.Names index target types)
    (hresolves : m.loader.Resolves files target (.ok (owner, method))) : method.argumentCount = types.length := by
  have hfound := Loader.findMethod_eq_ok_iff.2 hresolves
  obtain ⟨hcached, hmethod⟩ := Loader.cached_of_findMethod hl hfound
  obtain ⟨hmem, -, hdescriptor⟩ := Class.mem_of_method? hmethod
  have hdeclared : owner.Declared := ((hl.findMethod files target).sound _ _ hcached).2
  have htyped : MethodType.ofDescriptor? method.descriptor = some method.type := hdeclared.typed hmem
  obtain ⟨result, htype⟩ := hnames.descriptor
  rw [hdescriptor, htype, Option.some.injEq] at htyped
  rw [Method.argumentCount, ← htyped]

/-! ## What a static call does -/

/-- The next instruction is a static call of the method that slot `index` names, and no native method
stands for it. -/
structure AtStaticCall (m : Machine) (f : Frame) (below : List Frame) (index : UInt16) : Prop where
  frames : m.calls.frames = f :: below
  next : ∃ inst, f.fetch? = .ok inst ∧ inst.opcode = .invokestatic ∧ inst.operand = .index index
  bytecode : ∀ target types, f.Names index target types →
    m.natives.method? .static target.owner target.name types.length = none

theorem AtStaticCall.step_eq (h : AtStaticCall m f below index) (files : FileSystem) :
    ∃ inst log, inst.operand = .index index ∧ step files m =
      m.conclude below (Outcome.invokeStatic files m.natives inst f.moved m.loader m.streams) log := by
  obtain ⟨inst, hfetch, hop, hindex⟩ := h.next
  obtain ⟨log, hstep⟩ := Machine.step_eq h.frames hfetch files
  refine ⟨inst, log, hindex, ?_⟩
  rw [hstep, outcome, hop]
  rfl

theorem AtStaticCall.step_of_names (h : AtStaticCall m f below index) (files : FileSystem)
    (hnames : f.Names index target types) :
    ∃ log, step files m = m.conclude below (Outcome.bytecode files target f.moved m.loader m.streams) log := by
  obtain ⟨inst, log, hindex, hstep⟩ := h.step_eq files
  refine ⟨log, ?_⟩
  rw [hstep, Outcome.invokeStatic, (Frame.names_moved_iff.2 hnames).callSite_eq hindex]
  simp only [h.bytecode target types hnames]

/-- What a static call of code does once the method is found. -/
theorem AtStaticCall.step_of_code (h : AtStaticCall m f below index) (hcount : method.argumentCount = types.length)
    (hnames : f.Names index target types) (hresolves : m.loader.Resolves files target (.ok (owner, method)))
    (hstatic : method.isStatic = true) (hcode : method.code.isSome = true) :
    ∃ log, step files m = m.conclude below
      ⟨if f.stack.length < types.length then .fail .stackUnderflow f.moved
        else .call (f.moved.dropped types.length) (.ofCall owner method (f.operands types.length)),
        (m.loader.findMethod files target).loader, m.streams⟩ log := by
  obtain ⟨log, hstep⟩ := h.step_of_names files hnames
  have hkind : ¬(!method.isStatic || method.code.isNone) = true := by
    rw [hstatic, Option.isNone_eq_false_iff.2 hcode]
    decide
  refine ⟨log, ?_⟩
  rw [hstep, Outcome.bytecode]
  simp only [Loader.findMethod_eq_ok_iff.2 hresolves, if_neg hkind, hcount]
  split
  · rename_i hfew
    rw [if_pos (show f.stack.length < types.length from hfew)]
  · rename_i henough
    rw [if_neg (show ¬f.stack.length < types.length from henough)]
    rfl

/-- The call goes through, where the method takes the arguments of the call site. -/
theorem AtStaticCall.step_of_count (h : AtStaticCall m f below index) (hcount : method.argumentCount = types.length)
    (hcallable : Callable files m f index target types owner method) :
    ∃ log, step files m = .ok true { m.put (m.loader.findMethod files target).loader m.streams
      (.ofCall owner method (f.operands types.length) :: f.moved.dropped types.length :: below) log with
        executed := m.executed + 1 } := by
  obtain ⟨hnames, hresolves, hstatic, hcode, henough, hroom⟩ := hcallable
  obtain ⟨log, hstep⟩ := h.step_of_code hcount hnames hresolves hstatic hcode
  have hlimit : ¬m.calls.limit ≤ below.length + 1 := by
    rw [CallStack.depth, h.frames, List.length_cons] at hroom
    exact Nat.not_le.2 hroom
  refine ⟨log, hstep.trans ?_⟩
  rw [if_neg (Nat.not_lt.2 henough)]
  simp only [conclude, Effect.settle, if_neg hlimit]

/-- The method takes the arguments of the call site, and there is no room for its frame. -/
theorem AtStaticCall.step_of_full (h : AtStaticCall m f below index) (hcount : method.argumentCount = types.length)
    (hnames : f.Names index target types) (hresolves : m.loader.Resolves files target (.ok (owner, method)))
    (hstatic : method.isStatic = true) (hcode : method.code.isSome = true) (henough : types.length ≤ f.stack.length)
    (hfull : m.calls.limit ≤ m.calls.depth) :
    ∃ log, step files m = .error (.failed (.stackOverflow m.calls.limit))
      (m.put (m.loader.findMethod files target).loader m.streams (f.moved.dropped types.length :: below) log) := by
  obtain ⟨log, hstep⟩ := h.step_of_code hcount hnames hresolves hstatic hcode
  have hlimit : m.calls.limit ≤ below.length + 1 := by
    rwa [CallStack.depth, h.frames, List.length_cons] at hfull
  refine ⟨log, hstep.trans ?_⟩
  rw [if_neg (Nat.not_lt.2 henough)]
  simp only [conclude, Effect.settle, if_pos hlimit]

/-- The call goes through. -/
theorem step_of_callable (h : AtStaticCall m f below index) (hl : m.loader.Used)
    (hcallable : Callable files m f index target types owner method) :
    ∃ log, step files m = .ok true { m.put (m.loader.findMethod files target).loader m.streams
      (.ofCall owner method (f.operands types.length) :: f.moved.dropped types.length :: below) log with
        executed := m.executed + 1 } :=
  h.step_of_count (argumentCount_of_resolves hl hcallable.names hcallable.resolves) hcallable

/-- The call fails. -/
theorem step_of_refuses (h : AtStaticCall m f below index) (hl : m.loader.Used) {e : Error} {later : Loader}
    {caller : Frame} (hrefuses : Refuses files m f index e later caller) :
    ∃ log, step files m = .error (.failed e) (m.put later m.streams (caller :: below) log) := by
  cases hrefuses with
  | nameless hnameless =>
    obtain ⟨inst, log, hindex, hstep⟩ := h.step_eq files
    refine ⟨log, ?_⟩
    rw [hstep, Outcome.invokeStatic, hnameless.moved.callSite_eq hindex]
    rfl
  | unresolved hnames hresolves =>
    obtain ⟨log, hstep⟩ := h.step_of_names files hnames
    refine ⟨log, ?_⟩
    rw [hstep, Outcome.bytecode]
    simp only [Loader.findMethod_eq_failed_iff.2 hresolves]
    rfl
  | @kind target types owner method hnames hresolves hkind =>
    obtain ⟨log, hstep⟩ := h.step_of_names files hnames
    have hrefused : (!method.isStatic || method.code.isNone) = true := by
      rw [Bool.or_eq_true, Bool.not_eq_true', Option.isNone_iff_eq_none]
      by_contra hboth
      rw [not_or, Bool.not_eq_false, ← ne_eq, ← Option.isSome_iff_ne_none] at hboth
      exact hkind hboth
    refine ⟨log, ?_⟩
    rw [hstep, Outcome.bytecode]
    simp only [Loader.findMethod_eq_ok_iff.2 hresolves, if_pos hrefused]
    rfl
  | operands hnames hresolves hstatic hcode hfew =>
    have hcount := argumentCount_of_resolves hl hnames hresolves
    obtain ⟨log, hstep⟩ := h.step_of_code hcount hnames hresolves hstatic hcode
    refine ⟨log, hstep.trans ?_⟩
    rw [if_pos hfew]
    rfl
  | room hnames hresolves hstatic hcode henough hfull =>
    have hcount := argumentCount_of_resolves hl hnames hresolves
    exact h.step_of_full hcount hnames hresolves hstatic hcode henough hfull

/-- The call goes on for ever. -/
theorem step_of_endless (h : AtStaticCall m f below index) (hendless : Endless files m f index target types) :
    step files m = .error .unfinished m := by
  obtain ⟨log, hstep⟩ := h.step_of_names files hendless.names
  rw [hstep, Outcome.bytecode]
  simp only [Loader.findMethod_eq_unfinished_iff.2 hendless.unresolved]
  rfl

/-- What a static call does, and when. -/
structure CallsStatically (files : FileSystem) (m : Machine) (f : Frame) (below : List Frame) (index : UInt16) :
    Prop where
  /-- It goes through just if it has all that it needs. -/
  succeeds : (∃ m', step files m = .ok true m') ↔
    ∃ target types owner method, Callable files m f index target types owner method
  /-- Then the method starts with its arguments, which the caller loses, in the order they were pushed. -/
  calls : ∀ target types owner method, Callable files m f index target types owner method →
    ∃ arguments rest callee log, f.stack = arguments.reverse ++ rest ∧ arguments.length = types.length ∧
      callee.Begins owner method arguments ∧
      step files m = .ok true { m.put (m.loader.findMethod files target).loader m.streams
        (callee :: { f.moved with stack := rest } :: below) log with executed := m.executed + 1 }
  /-- A method that is found is declared by the class that it comes with, and takes as many arguments as the
  call site says. -/
  counts : ∀ target types owner method, f.Names index target types →
    m.loader.Resolves files target (.ok (owner, method)) →
      owner.method? target.name target.descriptor = some method ∧ method.argumentCount = types.length
  /-- It fails just if something is missing, with the error of the first such thing. -/
  fails : ∀ e, (∃ m', step files m = .error (.failed e) m') ↔ ∃ later caller, Refuses files m f index e later caller
  /-- Nothing but the loader and the running frame is then changed. -/
  left : ∀ e later caller, Refuses files m f index e later caller →
    ∃ log, step files m = .error (.failed e) (m.put later m.streams (caller :: below) log)
  /-- The one other thing that can happen. -/
  endless : (∃ m', step files m = .error .unfinished m') ↔ ∃ target types, Endless files m f index target types

/-- The call goes through, fails or goes on for ever, each with its reason. -/
theorem AtStaticCall.step_cases (h : AtStaticCall m f below index) (hl : m.loader.Used) (files : FileSystem) :
    (∃ m' target types owner method, step files m = .ok true m' ∧
        Callable files m f index target types owner method) ∨
      (∃ e m' later caller, step files m = .error (.failed e) m' ∧ Refuses files m f index e later caller) ∨
      ∃ target types, step files m = .error .unfinished m ∧ Endless files m f index target types := by
  rcases callable_or_refuses files m f index with ⟨_, _, _, _, hcallable⟩ | ⟨_, _, _, hrefuses⟩ | ⟨_, _, hendless⟩
  · obtain ⟨log, hstep⟩ := step_of_callable h hl hcallable
    exact .inl ⟨_, _, _, _, _, hstep, hcallable⟩
  · obtain ⟨log, hstep⟩ := step_of_refuses h hl hrefuses
    exact .inr (.inl ⟨_, _, _, _, hstep, hrefuses⟩)
  · exact .inr (.inr ⟨_, _, step_of_endless h hendless, hendless⟩)

theorem AtStaticCall.callsStatically (h : AtStaticCall m f below index) (hl : m.loader.Used) (files : FileSystem) :
    CallsStatically files m f below index where
  succeeds := by
    constructor
    · rintro ⟨m', hstep⟩
      rcases h.step_cases hl files with ⟨_, _, _, _, _, _, hcallable⟩ | ⟨_, _, _, _, hother, _⟩ | ⟨_, _, hother, _⟩
      · exact ⟨_, _, _, _, hcallable⟩
      all_goals cases hstep.symm.trans hother
    · rintro ⟨target, types, owner, method, hcallable⟩
      obtain ⟨log, hstep⟩ := step_of_callable h hl hcallable
      exact ⟨_, hstep⟩
  calls target types owner method hcallable := by
    obtain ⟨log, hstep⟩ := step_of_callable h hl hcallable
    refine ⟨f.operands types.length, f.stack.drop types.length, _, log, ?_, Frame.length_operands hcallable.operands,
      Frame.begins_ofCall owner method _, hstep⟩
    rw [Frame.operands, List.reverse_reverse, List.take_append_drop]
  counts _ _ _ _ hnames hresolves := ⟨hresolves.method?_eq, argumentCount_of_resolves hl hnames hresolves⟩
  fails e := by
    constructor
    · rintro ⟨m', hstep⟩
      rcases h.step_cases hl files with ⟨_, _, _, _, _, hother, _⟩ | ⟨_, _, _, _, hother, hrefuses⟩ | ⟨_, _, hother, _⟩
      · cases hstep.symm.trans hother
      · cases hstep.symm.trans hother
        exact ⟨_, _, hrefuses⟩
      · cases hstep.symm.trans hother
    · rintro ⟨later, caller, hrefuses⟩
      obtain ⟨log, hstep⟩ := step_of_refuses h hl hrefuses
      exact ⟨_, hstep⟩
  left _ _ _ hrefuses := step_of_refuses h hl hrefuses
  endless := by
    constructor
    · rintro ⟨m', hstep⟩
      rcases h.step_cases hl files with ⟨_, _, _, _, _, hother, _⟩ | ⟨_, _, _, _, hother, _⟩ | ⟨_, _, _, hendless⟩
      · cases hstep.symm.trans hother
      · cases hstep.symm.trans hother
      · exact ⟨_, _, hendless⟩
    · rintro ⟨target, types, hendless⟩
      exact ⟨_, step_of_endless h hendless⟩

/-- **A static call of bytecode**, in any machine that a host can bring about. -/
theorem static_call {m₀ : Machine} (hfresh : m₀.Fresh) (history : History)
    (h : (m₀.afterAll history).AtStaticCall f below index) (files : FileSystem) :
    CallsStatically files (m₀.afterAll history) f below index :=
  h.callsStatically (hfresh.sound.afterAll history).used files

end

end Machine

/-! ### A call with two arguments -/

namespace Sample

/-- The file of a class `T` whose `main` pushes 1 and 2 and calls `T.f(II)V`, which has a third local. -/
def passingFile : Bytes := [
  0xca, 0xfe, 0xba, 0xbe, 0x00, 0x00, 0x00, 0x34,
  -- the constants: the names, the class 2, and the method 9 of it
  0x00, 0x0a, 0x01, 0x00, 0x01, 0x54, 0x07, 0x00, 0x01, 0x01, 0x00, 0x04, 0x6d, 0x61, 0x69, 0x6e,
  0x01, 0x00, 0x16, 0x28, 0x5b, 0x4c, 0x6a, 0x61, 0x76, 0x61, 0x2f, 0x6c, 0x61, 0x6e, 0x67, 0x2f,
  0x53, 0x74, 0x72, 0x69, 0x6e, 0x67, 0x3b, 0x29, 0x56, 0x01, 0x00, 0x04, 0x43, 0x6f, 0x64, 0x65,
  0x01, 0x00, 0x01, 0x66, 0x01, 0x00, 0x05, 0x28, 0x49, 0x49, 0x29, 0x56, 0x0c, 0x00, 0x06, 0x00,
  0x07, 0x0a, 0x00, 0x02, 0x00, 0x08,
  -- this class, without a superclass
  0x00, 0x21, 0x00, 0x02, 0x00, 0x00, 0x00, 0x00, 0x00, 0x00, 0x00, 0x02,
  -- `main`
  0x00, 0x09, 0x00, 0x03, 0x00, 0x04, 0x00, 0x01, 0x00, 0x05, 0x00, 0x00, 0x00, 0x12, 0x00, 0x02,
  0x00, 0x01, 0x00, 0x00, 0x00, 0x06, 0x04, 0x05, 0xb8, 0x00, 0x09, 0xb1, 0x00, 0x00, 0x00, 0x00,
  -- `f`
  0x00, 0x09, 0x00, 0x06, 0x00, 0x07, 0x00, 0x01, 0x00, 0x05, 0x00, 0x00, 0x00, 0x0d, 0x00, 0x00,
  0x00, 0x03, 0x00, 0x00, 0x00, 0x01, 0xb1, 0x00, 0x00, 0x00, 0x00,
  0x00, 0x00]

/-- There is no other file. -/
def passingFiles : FileSystem := .ofRecord [("r/T.class", .ok passingFile)]

/-- The program is entered and pushes the arguments. -/
def pushed : History := [(passingFiles, .enter "T"), (passingFiles, .step), (passingFiles, .step)]

end Sample

/-- The arguments arrive in the order they were pushed, and the third local is null. -/
theorem static_call_pushed :
    ∃ f callee m', Sample.idle.Fresh ∧ (Sample.idle.afterAll Sample.pushed).AtStaticCall f [] 9 ∧
      f.stack = [.int 2, .int 1] ∧
      Machine.step Sample.passingFiles (Sample.idle.afterAll Sample.pushed) = .ok true m' ∧
      m'.calls.frames = [callee, { f.moved with stack := [] }] ∧ callee.locals[0]? = some (.int 1) ∧
      callee.locals[1]? = some (.int 2) ∧ callee.locals[2]? = some .null := by
  have hfresh : Sample.idle.Fresh := ⟨rfl, .fresh _⟩
  have hread : (Sample.idle.afterAll Sample.pushed).calls.frames.map
      (fun f => (f.stack, f.fetch?, f.owner.pool.method 9)) =
        [([.int 2, .int 1], .ok ⟨2, .invokestatic, .index 9⟩, .ok ⟨"T", "f", "(II)V"⟩)] := by decide +kernel
  obtain ⟨f, hframes, hread⟩ := List.map_eq_singleton_iff.1 hread
  obtain ⟨hstack, hfetch, hreference⟩ : f.stack = _ ∧ f.fetch? = _ ∧ f.owner.pool.method 9 = _ := by
    simpa only [Prod.mk.injEq] using hread
  have hnames : f.Names 9 ⟨"T", "f", "(II)V"⟩ [.primitive .int, .primitive .int] :=
    ⟨hreference, ⟨none, by decide +kernel⟩, by decide⟩
  have hat : (Sample.idle.afterAll Sample.pushed).AtStaticCall f [] 9 := by
    refine ⟨hframes, ⟨_, hfetch, rfl, rfl⟩, fun target types hother => ?_⟩
    obtain ⟨rfl, rfl⟩ := hnames.unique hother
    decide +kernel
  have hfound : ((Sample.idle.afterAll Sample.pushed).loader.findMethod Sample.passingFiles
      ⟨"T", "f", "(II)V"⟩).result.map (fun found => (found.2.isStatic, found.2.code.isSome, found.2.maxLocals)) =
        .ok (true, true, 3) := by decide +kernel
  obtain ⟨⟨owner, method⟩, hfound, hread⟩ := exists_of_map_ok hfound
  obtain ⟨hstatic, hcode, hlocals⟩ : method.isStatic = true ∧ method.code.isSome = true ∧ method.maxLocals = 3 := by
    simpa only [Prod.mk.injEq] using hread
  have hcall := Machine.static_call hfresh Sample.pushed hat Sample.passingFiles
  obtain ⟨arguments, rest, callee, log, hsplit, hlength, hbegins, hstep⟩ := hcall.calls _ _ owner method
    ⟨hnames, Loader.findMethod_eq_ok_iff.1 hfound, hstatic, hcode, by rw [hstack]; decide, by decide +kernel⟩
  obtain ⟨rfl, rfl⟩ : arguments = [.int 1, .int 2] ∧ rest = [] := by
    match arguments, hlength with
    | [a, b], _ =>
      rw [hstack] at hsplit
      cases hsplit
      exact ⟨rfl, rfl⟩
  refine ⟨f, callee, _, hfresh, hat, hstack, hstep, rfl, hbegins.holds 0 (by decide), hbegins.holds 1 (by decide),
    hbegins.null 2 (by decide) ?_⟩
  rw [hlocals]
  decide

end Jvm
