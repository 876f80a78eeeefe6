import Jvm.Proofs.Machine.Effect

/-!
# Calls do not disturb their callers

While a static call is under way, whatever the callee does and calls, and whatever fails on the way,
the caller's frame and all frames below it stay as the call left them. The step that ends the call is
a return of the callee, and the only thing it changes below is the returned value, on top of the
caller's operands.

One step is `next_moves`; a run is `Above.nexts`; the two ends of a call are `step_call` and
`Above.returns`. `call_isolated` puts them together.
-/

namespace Jvm

/-- The frame while it waits for a call that took `n` of its operands. -/
def Frame.calling (f : Frame) (n : Nat) : Frame := { f with pc := f.pc + 1, stack := f.stack.drop n }

/-! ## What an instruction can make of its frame -/

/-- The effects that the instruction `inst` can have on the invocation `f`. -/
def Effect.Allowed (f : Frame) (inst : Instruction Nat) : Effect → Prop
  | .stay f' => f.Continues f'
  | .fail _ f' => f.Continues f'
  | .call caller callee =>
    inst.opcode = .invokestatic ∧ callee.method.argumentCount ≤ f.stack.length ∧
      caller = f.dropped callee.method.argumentCount ∧
      callee = .ofCall callee.owner callee.method (f.operands callee.method.argumentCount)
  | .leave => inst.opcode = .ret
  | .give v => (inst.opcode = .ireturn ∨ inst.opcode = .areturn) ∧ f.stack.head? = some v
  | .hang => True

theorem Opcode.eq_invokestatic {op : Opcode} (h : op.operation = .invokeStatic) : op = .invokestatic := by
  cases op <;> simp [Opcode.operation] at h ⊢

theorem Opcode.eq_ret {op : Opcode} (h : op.operation = .returnVoid) : op = .ret := by
  cases op <;> simp [Opcode.operation] at h ⊢

theorem Opcode.eq_ireturn {op : Opcode} (h : op.operation = .returnInt) : op = .ireturn := by
  cases op <;> simp [Opcode.operation] at h ⊢

theorem Opcode.eq_areturn {op : Opcode} (h : op.operation = .returnReference) : op = .areturn := by
  cases op <;> simp [Opcode.operation] at h ⊢

section
variable {inst : Instruction Nat}

theorem Frame.continues_dropped (f : Frame) (n : Nat) : f.Continues (f.dropped n) := ⟨rfl, rfl, rfl⟩

theorem Frame.continues_pushed (f : Frame) (v : Value) : f.Continues (f.pushed v) := ⟨rfl, rfl, rfl⟩

theorem Outcome.native_allowed {f g : Frame} (hg : f.Continues g) (action : NativeAction) (call : NativeCall)
    (loader : Loader) (streams : Streams) :
    (Outcome.native action call g loader streams).effect.Allowed f inst := by
  unfold Outcome.native
  cases action call streams with
  | error e streams => exact hg
  | ok result streams =>
    cases result with
    | none => exact hg
    | some v => exact hg.trans (g.continues_pushed v)

theorem Outcome.bytecode_allowed {f : Frame} (h : inst.opcode = .invokestatic) (files : FileSystem)
    (target : MemberRef) (loader : Loader) (streams : Streams) :
    (Outcome.bytecode files target f loader streams).effect.Allowed f inst := by
  unfold Outcome.bytecode
  simp only
  split
  · trivial
  · exact .refl f
  · split
    · exact .refl f
    · split
      · exact .refl f
      · rename_i hge
        exact ⟨h, Nat.le_of_not_lt hge, rfl, rfl⟩

theorem Outcome.invokeStatic_allowed {f : Frame} (h : inst.opcode = .invokestatic) (files : FileSystem)
    (natives : NativeTable) (loader : Loader) (streams : Streams) :
    (Outcome.invokeStatic files natives inst f loader streams).effect.Allowed f inst := by
  unfold Outcome.invokeStatic
  split
  · exact .refl f
  · split
    · exact Outcome.bytecode_allowed h _ _ _ _
    · split
      · exact .refl f
      · exact Outcome.native_allowed (f.continues_dropped _) _ _ _ _

theorem Outcome.invokeVirtual_allowed (f : Frame) (natives : NativeTable) (loader : Loader) (streams : Streams) :
    (Outcome.invokeVirtual natives inst f loader streams).effect.Allowed f inst := by
  unfold Outcome.invokeVirtual
  split
  · exact .refl f
  · split
    · exact .refl f
    · split
      · exact .refl f
      · split
        · exact f.continues_dropped _
        · exact Outcome.native_allowed (f.continues_dropped _) _ _ _ _

/-- Every effect of an instruction is an allowed one. -/
theorem outcome_allowed (inst : Instruction Nat) (files : FileSystem) (natives : NativeTable) (pc : Nat)
    (f : Frame) (loader : Loader) (streams : Streams) :
    (outcome files natives inst pc f loader streams).effect.Allowed f inst := by
  unfold outcome
  split
  · rename_i op _
    unfold Outcome.within
    have hk := Frame.perform_continues op inst
    cases h : Frame.perform op inst f with
    | ok _ f' => exact hk.of_ok h
    | error e f' => exact hk.of_error h
  · cases f.staticField natives inst with
    | ok v => exact f.continues_pushed v
    | error e => exact .refl f
  · rename_i h
    exact Outcome.invokeStatic_allowed (Opcode.eq_invokestatic h) _ _ _ _
  · exact Outcome.invokeVirtual_allowed f _ _ _
  · rename_i h
    exact Opcode.eq_ret h
  · rename_i hop
    unfold Outcome.within
    cases h : Frame.popInt f with
    | ok v f' => exact ⟨.inl (Opcode.eq_ireturn hop), by rw [(Frame.popInt_ok h).1, List.head?_cons]⟩
    | error e f' => exact Frame.keeps_popInt.of_error h
  · rename_i hop
    unfold Outcome.within
    cases h : Frame.popReference f with
    | ok v f' => exact ⟨.inr (Opcode.eq_areturn hop), by rw [(Frame.popReference_ok h).1, List.head?_cons]⟩
    | error e f' => exact Frame.keeps_popReference.of_error h
  · exact .refl f

end

/-! ## One step -/

/-- What a step can make of the call stack `f :: below`. -/
inductive Moves (f : Frame) (below : List Frame) : List Frame → Prop
  | stay {f' : Frame} : f.Continues f' → Moves f below (f' :: below)
  | call {f' : Frame} (callee : Frame) : f.Continues f' → Moves f below (callee :: f' :: below)
  | leave {inst : Instruction Nat} : f.fetch? = .ok inst → inst.opcode = .ret → Moves f below below
  | give {inst : Instruction Nat} {v : Value} : f.fetch? = .ok inst →
      inst.opcode = .ireturn ∨ inst.opcode = .areturn → f.stack.head? = some v →
      Moves f below (below.modifyHead (·.pushed v))

namespace Machine

/-- The machine that a computation leaves, also when it fails. -/
def leftBy {α : Type} (act : Exec α) (m : Machine) : Machine :=
  match act m with
  | .ok _ after => after
  | .error _ after => after

/-- The answer that a computation gives, without the machine that it leaves. -/
def answer {α : Type} (act : Exec α) (m : Machine) : Except Stop α :=
  match act m with
  | .ok a _ => .ok a
  | .error stop _ => .error stop

theorem eq_ok_of_answer {α : Type} {act : Exec α} {m : Machine} {a : α} (h : m.answer act = .ok a) :
    act m = .ok a (m.leftBy act) := by
  unfold answer at h
  unfold leftBy
  cases hact : act m with
  | ok b after =>
    rw [hact] at h
    cases h
    rfl
  | error stop after =>
    rw [hact] at h
    cases h

/-- The machine that a step leaves behind, also when the step fails. -/
def next (m : Machine) (files : FileSystem) : Machine :=
  match step files m with
  | .ok _ after => after
  | .error _ after => after

theorem leftBy_step (m : Machine) (files : FileSystem) : m.leftBy (step files) = m.next files := by
  unfold leftBy next
  cases step files m <;> rfl

/-- The machine after a run of steps, each with the files that it finds. -/
def nexts (m : Machine) (run : List FileSystem) : Machine := run.foldl next m

section
variable {m : Machine} {f : Frame} {below : List Frame}

theorem next_moves (hm : m.calls.frames = f :: below) (files : FileSystem) :
    Moves f below (m.next files).calls.frames := by
  unfold next
  cases hf : f.fetch? with
  | error e =>
    rw [step_of_fetch_error hm hf]
    exact hm ▸ .stay (.refl f)
  | ok inst =>
    obtain ⟨log, h⟩ := step_eq hm hf files
    have ha := outcome_allowed inst files m.natives f.pc { f with pc := f.pc + 1 } m.loader
      m.streams
    rw [h]
    unfold conclude
    generalize outcome files m.natives inst f.pc { f with pc := f.pc + 1 } m.loader m.streams = o
      at ha ⊢
    have hmoved : f.Continues { f with pc := f.pc + 1 } := ⟨rfl, rfl, rfl⟩
    cases ho : o.effect with
    | stay f' =>
      rw [ho] at ha
      exact .stay (hmoved.trans ha)
    | fail e f' =>
      rw [ho] at ha
      exact .stay (hmoved.trans ha)
    | call caller callee =>
      rw [ho] at ha
      obtain ⟨-, -, rfl, -⟩ := ha
      have hcaller : f.Continues (Frame.dropped { f with pc := f.pc + 1 } callee.method.argumentCount) :=
        hmoved.trans (Frame.continues_dropped _ _)
      by_cases hl : m.calls.limit ≤ below.length + 1
      · simp only [Effect.settle, if_pos hl]
        exact .stay hcaller
      · simp only [Effect.settle, if_neg hl]
        exact .call callee hcaller
    | leave =>
      rw [ho] at ha
      exact .leave hf ha
    | give v =>
      rw [ho] at ha
      cases below with
      | nil => exact .give hf ha.1 ha.2
      | cons caller rest => exact .give hf ha.1 ha.2
    | hang => exact hm ▸ .stay (.refl f)

/-- **The step that begins a call.** A step that succeeds and leaves more frames has executed a static
call; the caller has moved past it and has given the callee its topmost operands. -/
theorem step_call {m₁ : Machine} {files : FileSystem} (hm : m.calls.frames = f :: below)
    (hstep : step files m = .ok true m₁) (hdeeper : m.calls.depth < m₁.calls.depth) :
    ∃ callee inst, f.fetch? = .ok inst ∧ inst.opcode = .invokestatic ∧
      callee.method.argumentCount ≤ f.stack.length ∧
      callee = .ofCall callee.owner callee.method (f.operands callee.method.argumentCount) ∧
      m₁.calls.frames = callee :: f.calling callee.method.argumentCount :: below := by
  cases hf : f.fetch? with
  | error e =>
    rw [step_of_fetch_error hm hf] at hstep
    cases hstep
  | ok inst =>
    obtain ⟨log, h⟩ := step_eq hm hf files
    have ha := outcome_allowed inst files m.natives f.pc { f with pc := f.pc + 1 } m.loader
      m.streams
    generalize outcome files m.natives inst f.pc { f with pc := f.pc + 1 } m.loader m.streams = o
      at h ha
    obtain ⟨frames, hs, rfl⟩ := conclude_eq_ok (h.symm.trans hstep)
    replace hdeeper : (f :: below).length < frames.length := hm ▸ hdeeper
    cases ho : o.effect with
    | call caller callee =>
      rw [ho] at ha hs
      obtain ⟨hop, hn, rfl, hcallee⟩ := ha
      by_cases hl : m.calls.limit ≤ below.length + 1
      · simp [Effect.settle, hl] at hs
      · simp only [Effect.settle, if_neg hl, Option.some.injEq, Prod.mk.injEq, true_and] at hs
        exact ⟨callee, inst, rfl, hop, hn, hcallee, hs.symm⟩
    -- no other effect leaves more frames than there were
    | stay f' =>
      obtain rfl : f' :: below = frames := by simpa [ho, Effect.settle] using hs
      exact absurd hdeeper (Nat.lt_irrefl _)
    | leave =>
      obtain rfl : below = frames := by simpa [ho, Effect.settle] using hs
      simp only [List.length_cons] at hdeeper
      omega
    | give v =>
      cases below with
      | nil => simp [ho, Effect.settle] at hs
      | cons caller rest =>
        obtain rfl : caller.pushed v :: rest = frames := by simpa [ho, Effect.settle] using hs
        simp only [List.length_cons] at hdeeper
        omega
    | fail e f' => simp [ho, Effect.settle] at hs
    | hang => simp [ho, Effect.settle] at hs

end

/-! ## Runs -/

/-- The invocation `callee` is still under way right above the frames `rest`. -/
def Above (callee : Frame) (rest : List Frame) (m : Machine) : Prop :=
  ∃ inner callee', callee.Continues callee' ∧ m.calls.frames = inner ++ callee' :: rest

/-- The step from `m` to `m'` executes a return of the invocation `callee`, and the frames `rest`
below it get nothing but the value on top of its operand stack, if it returns one. -/
def Returns (callee : Frame) (rest : List Frame) (m m' : Machine) : Prop :=
  ∃ last inst, callee.Continues last ∧ m.calls.frames = last :: rest ∧ last.fetch? = .ok inst ∧
    (inst.opcode = .ret ∧ m'.calls.frames = rest ∨
      (inst.opcode = .ireturn ∨ inst.opcode = .areturn) ∧
        ∃ v, last.stack.head? = some v ∧ m'.calls.frames = rest.modifyHead (·.pushed v))

section
variable {m : Machine} {callee : Frame} {rest : List Frame}

/-- As long as a step leaves a frame above `rest`, the invocation there is the same. -/
theorem Above.next (h : Above callee rest m) {files : FileSystem}
    (hd : rest.length < (m.next files).calls.depth) : Above callee rest (m.next files) := by
  obtain ⟨inner, callee', hc, hm⟩ := h
  cases inner with
  | nil =>
    have hmoves := next_moves hm files
    unfold CallStack.depth at hd
    generalize hframes : (m.next files).calls.frames = frames at hmoves hd
    cases hmoves with
    | stay hf => exact ⟨[], _, hc.trans hf, hframes⟩
    | call g hf => exact ⟨[g], _, hc.trans hf, hframes⟩
    | leave => omega
    | give => simp at hd
  | cons f inner =>
    have hmoves := next_moves hm files
    generalize hframes : (m.next files).calls.frames = frames at hmoves
    cases hmoves with
    | @stay f' _ => exact ⟨f' :: inner, callee', hc, hframes⟩
    | @call f' g _ => exact ⟨g :: f' :: inner, callee', hc, hframes⟩
    | leave => exact ⟨inner, callee', hc, hframes⟩
    | @give _ v => 
      -- the value goes to the invocation itself if it was waiting for this very frame
      cases inner with
      | nil => exact ⟨[], callee'.pushed v, hc.trans (callee'.continues_pushed v), hframes⟩
      | cons g inner => exact ⟨g.pushed v :: inner, callee', hc, hframes⟩

theorem Above.nexts (h : Above callee rest m) :
    ∀ run : List FileSystem, (∀ k ≤ run.length, rest.length < (m.nexts (run.take k)).calls.depth) →
      Above callee rest (m.nexts run) := by
  intro run
  induction run generalizing m with
  | nil => exact fun _ => h
  | cons files run ih =>
    intro hd
    have h1 := hd 1 (by simp)
    refine ih (h.next (by simpa [Machine.nexts] using h1)) fun k hk => ?_
    have hk' := hd (k + 1) (by simpa using hk)
    simpa [Machine.nexts] using hk'

/-- **The step that ends a call.** It is a return of the called invocation. -/
theorem Above.returns (h : Above callee rest m) {files : FileSystem}
    (hd : (m.next files).calls.depth = rest.length) : Returns callee rest m (m.next files) := by
  unfold Returns
  obtain ⟨inner, callee', hc, hm⟩ := h
  cases inner with
  | nil =>
    have hmoves := next_moves hm files
    unfold CallStack.depth at hd
    generalize (m.next files).calls.frames = frames at hmoves hd ⊢
    cases hmoves with
    | stay => simp at hd
    | call =>
      simp only [List.length_cons] at hd
      omega
    | leave hf hop => exact ⟨callee', _, hc, hm, hf, .inl ⟨hop, rfl⟩⟩
    | give hf hop hv => exact ⟨callee', _, hc, hm, hf, .inr ⟨hop, _, hv, rfl⟩⟩
  | cons f inner =>
    have hmoves := next_moves hm files
    unfold CallStack.depth at hd
    generalize (m.next files).calls.frames = frames at hmoves hd
    cases hmoves <;> simp at hd <;> omega

/-- **Calls are isolated.** Let a step succeed and leave one frame more: it has called `callee` with
the topmost operands of the caller `c`. During every run of steps that keeps the call under way, the
caller waits right below `callee`, with nothing changed but those operands and the counter, and the
frames below it are the same. The first step that ends the call is a return of `callee`, and adds
nothing but the returned value. -/
theorem call_isolated {m m₁ : Machine} {files : FileSystem} {c : Frame} {below : List Frame}
    (hm : m.calls.frames = c :: below) (hstep : step files m = .ok true m₁)
    (hdeeper : m.calls.depth < m₁.calls.depth) :
    ∃ callee inst, c.fetch? = .ok inst ∧ inst.opcode = .invokestatic ∧
      callee.method.argumentCount ≤ c.stack.length ∧
      callee = .ofCall callee.owner callee.method (c.operands callee.method.argumentCount) ∧
      m₁.calls.frames = callee :: c.calling callee.method.argumentCount :: below ∧
      ∀ run : List FileSystem,
        (∀ k ≤ run.length, below.length + 1 < (m₁.nexts (run.take k)).calls.depth) →
        Above callee (c.calling callee.method.argumentCount :: below) (m₁.nexts run) ∧
        ∀ files', (m₁.nexts (run ++ [files'])).calls.depth = below.length + 1 →
          Returns callee (c.calling callee.method.argumentCount :: below) (m₁.nexts run)
            (m₁.nexts (run ++ [files'])) := by
  obtain ⟨callee, inst, hf, hop, hn, hcallee, hm₁⟩ := step_call hm hstep hdeeper
  refine ⟨callee, inst, hf, hop, hn, hcallee, hm₁, fun run hd => ?_⟩
  have hstart : Above callee (c.calling callee.method.argumentCount :: below) m₁ :=
    ⟨[], callee, .refl callee, hm₁⟩
  have habove := hstart.nexts run hd
  refine ⟨habove, fun files' hd' => ?_⟩
  have hlast : m₁.nexts (run ++ [files']) = (m₁.nexts run).next files' := by
    simp only [nexts, List.foldl_append, List.foldl_cons, List.foldl_nil]
  rw [hlast] at hd' ⊢
  exact habove.returns hd'

end

end Machine

/-! ### A call with two arguments -/

namespace Sample

/-- Returns the second of two integers. -/
def second : Method where
  name := "second"
  descriptor := "(II)I"
  access := 0x0008
  type := ⟨[.primitive .int, .primitive .int], some (.primitive .int)⟩
  maxStack := 1
  maxLocals := 2
  code := some #[⟨0, .iload1, .slot 1⟩, ⟨1, .ireturn, .none⟩]

/-- Calls `second` and drops the result. -/
def main : Method where
  name := "main"
  descriptor := "()V"
  access := 0x0008
  type := ⟨[], none⟩
  maxStack := 3
  maxLocals := 0
  code := some #[⟨0, .invokestatic, .index 6⟩, ⟨3, .pop, .none⟩, ⟨4, .ret, .none⟩]

def owner : Class where
  name := "A"
  superName := none
  pool := ⟨#[.unusable, .utf8 "A", .classRef 1, .utf8 "second", .utf8 "(II)I", .nameAndType 3 4,
    .methodRef 2 5]⟩
  methods := [second, main]

/-- About to call, with a third operand below the two arguments. -/
def caller : Frame := { owner, method := main, stack := [.int 2, .int 1, .null], locals := #[] }

/-- A machine where one frame waits below `caller`. -/
def machine : Machine where
  loader := { roots := [], cache := [("A", owner)] }
  natives := {}
  calls := { frames := [caller, caller] }

end Sample

/-- The call of `Sample.second`, with one other frame below the caller. -/
theorem call_isolated_second :
    ∃ callee, (Sample.machine.next (.ofRecord [])).calls.frames =
        callee :: Sample.caller.calling callee.method.argumentCount :: [Sample.caller] ∧
      ∀ run : List FileSystem,
        (∀ k ≤ run.length,
          2 < ((Sample.machine.next (.ofRecord [])).nexts (run.take k)).calls.depth) →
        Machine.Above callee (Sample.caller.calling callee.method.argumentCount :: [Sample.caller])
          ((Sample.machine.next (.ofRecord [])).nexts run) := by
  have hanswer : Sample.machine.answer (Machine.step (.ofRecord [])) = .ok true := by decide +kernel
  have hstep := Machine.eq_ok_of_answer hanswer
  rw [Machine.leftBy_step] at hstep
  have hdeeper : Sample.machine.calls.depth < (Sample.machine.next (.ofRecord [])).calls.depth := by
    decide +kernel
  obtain ⟨callee, _, _, _, _, _, hframes, hrun⟩ := Machine.call_isolated rfl hstep hdeeper
  exact ⟨callee, hframes, fun run hd => (hrun run hd).1⟩

end Jvm
