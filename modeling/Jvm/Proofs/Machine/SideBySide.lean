import Jvm.Proofs.Machine.Requests

/-!
# Machines side by side

Two machines that have the same frames, native methods and limits, and whose loaders and streams may
differ in some way `rel`. What an instruction does to its frame depends on the loader only where it
calls bytecode, and on the streams only where it calls a native method (`outcome_plan`). So machines
side by side stay so, and answer alike, as long as the two loaders find the same methods and the native
methods do the same on both streams: `outcome_beside` for an instruction, `step_beside` for a step,
`enter_beside` for the start of a program.
-/

namespace Jvm

/-! ## What an instruction depends on -/

section
variable (natives : NativeTable) (inst : Instruction Nat) (f : Frame)

/-- An instruction is done with its frame alone, or calls a native method, or calls bytecode. -/
def Outcome.Planned (run : FileSystem → Loader → Streams → Outcome) : Prop :=
  (∃ effect, ∀ files loader streams, run files loader streams = ⟨effect, loader, streams⟩) ∨
    (∃ method ∈ natives.methods, ∃ call rest, ∀ files loader streams,
      run files loader streams = Outcome.native method.action call rest loader streams) ∨
    ∃ target, ∀ files loader streams, run files loader streams = Outcome.bytecode files target f loader streams

theorem Outcome.planned_invokeStatic :
    Planned natives f fun files loader streams => invokeStatic files natives inst f loader streams := by
  unfold invokeStatic
  cases f.callSite inst with
  | error e => exact .inl ⟨.fail e f, fun _ _ _ => rfl⟩
  | ok site =>
    obtain ⟨target, types⟩ := site
    simp only
    cases hmethod : natives.method? .static target.owner target.name types.length with
    | none => exact .inr (.inr ⟨target, fun _ _ _ => rfl⟩)
    | some action =>
      obtain ⟨method, hmem, rfl⟩ := NativeTable.mem_of_method? hmethod
      simp only
      split
      · exact .inl ⟨.fail .stackUnderflow f, fun _ _ _ => rfl⟩
      · exact .inr (.inl ⟨method, hmem, _, _, fun _ _ _ => rfl⟩)

theorem Outcome.planned_invokeVirtual :
    Planned natives f fun _ loader streams => invokeVirtual natives inst f loader streams := by
  unfold invokeVirtual
  cases f.callSite inst with
  | error e => exact .inl ⟨.fail e f, fun _ _ _ => rfl⟩
  | ok site =>
    obtain ⟨target, types⟩ := site
    simp only
    cases hmethod : natives.method? .virtual target.owner target.name types.length with
    | none => exact .inl ⟨_, fun _ _ _ => rfl⟩
    | some action =>
      obtain ⟨method, hmem, rfl⟩ := NativeTable.mem_of_method? hmethod
      simp only
      split
      · exact .inl ⟨.fail .stackUnderflow f, fun _ _ _ => rfl⟩
      · cases f.stack.drop types.length with
        | nil => exact .inl ⟨_, fun _ _ _ => rfl⟩
        | cons receiver rest => exact .inr (.inl ⟨method, hmem, _, _, fun _ _ _ => rfl⟩)

/-- **What an instruction depends on**, besides its frame. -/
theorem outcome_plan (pc : Nat) :
    Outcome.Planned natives f fun files loader streams => outcome files natives inst pc f loader streams := by
  unfold outcome
  cases inst.opcode.operation with
  | within op => exact .inl ⟨_, fun _ _ _ => rfl⟩
  | getStatic =>
    cases f.staticField natives inst with
    | ok v => exact .inl ⟨_, fun _ _ _ => rfl⟩
    | error e => exact .inl ⟨_, fun _ _ _ => rfl⟩
  | invokeStatic => exact Outcome.planned_invokeStatic natives inst f
  | invokeVirtual => exact Outcome.planned_invokeVirtual natives inst f
  | returnVoid => exact .inl ⟨_, fun _ _ _ => rfl⟩
  | returnInt => exact .inl ⟨_, fun _ _ _ => rfl⟩
  | returnReference => exact .inl ⟨_, fun _ _ _ => rfl⟩
  | unsupported => exact .inl ⟨_, fun _ _ _ => rfl⟩

end

/-! ## Side by side -/

/-- The outcomes have the same effect on the frames, and leave loaders and streams related. -/
structure Outcome.Beside (rel : Loader × Streams → Loader × Streams → Prop) (o o' : Outcome) : Prop where
  effect : o'.effect = o.effect
  around : rel (o.loader, o.streams) (o'.loader, o'.streams)

/-- A call of bytecode has the same effect where the same method is found. -/
theorem Outcome.bytecode_beside {rel : Loader × Streams → Loader × Streams → Prop} {files : FileSystem}
    {target : MemberRef} {loader loader' : Loader} {streams streams' : Streams}
    (hresult : (loader'.findMethod files target).result = (loader.findMethod files target).result)
    (haround : rel ((loader.findMethod files target).loader, streams)
      ((loader'.findMethod files target).loader, streams')) (f : Frame) :
    (bytecode files target f loader streams).Beside rel (bytecode files target f loader' streams') := by
  unfold bytecode
  simp only [hresult]
  cases (loader.findMethod files target).result with
  | error stop => cases stop <;> exact ⟨rfl, haround⟩
  | ok found =>
    obtain ⟨owner, method⟩ := found
    simp only
    split
    · exact ⟨rfl, haround⟩
    · split <;> exact ⟨rfl, haround⟩

/-- **Instructions side by side.** It is enough to compare what native methods do and, if the instruction
calls bytecode, that call. -/
theorem outcome_beside {rel : Loader × Streams → Loader × Streams → Prop} {files : FileSystem} {natives : NativeTable}
    {inst : Instruction Nat} {pc : Nat} {f : Frame} {loader loader' : Loader} {streams streams' : Streams}
    (haround : rel (loader, streams) (loader', streams'))
    (hnative : ∀ method ∈ natives.methods, ∀ call rest,
      (Outcome.native method.action call rest loader streams).Beside rel
        (Outcome.native method.action call rest loader' streams'))
    (hbytecode : ∀ target, outcome files natives inst pc f loader streams =
        Outcome.bytecode files target f loader streams →
      (Outcome.bytecode files target f loader streams).Beside rel
        (Outcome.bytecode files target f loader' streams')) :
    (outcome files natives inst pc f loader streams).Beside rel
      (outcome files natives inst pc f loader' streams') := by
  rcases outcome_plan natives inst f pc with ⟨effect, hrun⟩ | ⟨method, hmem, call, rest, hrun⟩ | ⟨target, hrun⟩
  · beta_reduce at hrun
    rw [hrun, hrun]
    exact ⟨rfl, haround⟩
  · beta_reduce at hrun
    rw [hrun, hrun]
    exact hnative method hmem call rest
  · have hcall := hbytecode target (hrun files loader streams)
    beta_reduce at hrun
    rw [hrun, hrun]
    exact hcall

namespace Machine

/-- Machines with these native methods that have the same frames and settings, related loaders and
streams, and have executed as many instructions since they had executed `base` and `base'`. -/
structure Beside (natives : NativeTable) (rel : Loader × Streams → Loader × Streams → Prop) (base base' : Nat)
    (m m' : Machine) : Prop where
  same : m.natives = natives
  same' : m'.natives = natives
  calls : m'.calls = m.calls
  around : rel (m.loader, m.streams) (m'.loader, m'.streams)
  executed : ∃ count, m.executed = base + count ∧ m'.executed = base' + count

/-- Both computations end alike, in machines that are side by side. -/
inductive EndBeside (natives : NativeTable) (rel : Loader × Streams → Loader × Streams → Prop) (base base' : Nat)
    {α : Type} : EStateM.Result Stop Machine α → EStateM.Result Stop Machine α → Prop
  | ok (a : α) {m m' : Machine} : m.Beside natives rel base base' m' →
      EndBeside natives rel base base' (.ok a m) (.ok a m')
  | error (stop : Stop) {m m' : Machine} : m.Beside natives rel base base' m' →
      EndBeside natives rel base base' (.error stop m) (.error stop m')

section
variable {natives : NativeTable} {rel : Loader × Streams → Loader × Streams → Prop} {base base' : Nat}
  {m m' : Machine} {files : FileSystem}

theorem endBeside_iff {α : Type} {r r' : EStateM.Result Stop Machine α} :
    EndBeside natives rel base base' r r' ↔ EndInStep (Beside natives rel base base') r r' := by
  constructor
  · rintro (⟨a, h⟩ | ⟨stop, h⟩)
    · exact .ok a h
    · exact .error stop h
  · rintro (⟨a, h⟩ | ⟨stop, h⟩)
    · exact .ok a h
    · exact .error stop h

theorem EndBeside.answer_eq {α : Type} {act act' : Exec α} (h : EndBeside natives rel base base' (act m) (act' m')) :
    m'.answer act' = m.answer act := answer_of_inStep (endBeside_iff.1 h)

theorem EndBeside.leftBy {α : Type} {act act' : Exec α} (h : EndBeside natives rel base base' (act m) (act' m')) :
    (m.leftBy act).Beside natives rel base base' (m'.leftBy act') := leftBy_of_inStep (endBeside_iff.1 h)

/-- The first computation does not fail, so the second one does not either. -/
theorem EndBeside.exists_ok {α : Type} {act : Exec α} {r : EStateM.Result Stop Machine α} {a : α} {m₁ : Machine}
    (h : EndBeside natives rel base base' r (act m')) (hr : r = .ok a m₁) :
    ∃ m₁', act m' = .ok a m₁' ∧ m₁.Beside natives rel base base' m₁' := (endBeside_iff.1 h).exists_ok hr

theorem EndBeside.bind {α β : Type} {act act' : Exec α} {k k' : α → Exec β}
    (h : EndBeside natives rel base base' (act m) (act' m'))
    (hk : ∀ a m₁ m₁', m₁.Beside natives rel base base' m₁' →
      EndBeside natives rel base base' (k a m₁) (k' a m₁')) :
    EndBeside natives rel base base' ((act >>= k) m) ((act' >>= k') m') :=
  endBeside_iff.2 ((endBeside_iff.1 h).bind fun a m₁ m₁' hbeside => endBeside_iff.1 (hk a m₁ m₁' hbeside))

/-- What is logged makes no difference. -/
theorem Beside.logged (h : m.Beside natives rel base base' m') (log log' : List Event) :
    ({ m with log } : Machine).Beside natives rel base base' { m' with log := log' } :=
  ⟨h.same, h.same', h.calls, h.around, h.executed⟩

theorem Beside.put (h : m.Beside natives rel base base' m') {around around' : Loader × Streams}
    (hrel : rel around around') (frames : List Frame) (log log' : List Event) :
    (m.put around.1 around.2 frames log).Beside natives rel base base' (m'.put around'.1 around'.2 frames log') where
  same := h.same
  same' := h.same'
  calls := by
    show ({ m'.calls with frames } : CallStack) = { m.calls with frames }
    rw [h.calls]
  around := hrel
  executed := h.executed

/-- Outcomes side by side end steps alike. -/
theorem Beside.conclude (h : m.Beside natives rel base base' m') {o o' : Outcome} (ho : o.Beside rel o')
    (below : List Frame) (log log' : List Event) :
    EndBeside natives rel base base' (m.conclude below o log) (m'.conclude below o' log') := by
  have hput := h.put ho.around
  unfold Machine.conclude
  rw [ho.effect, h.calls]
  cases o.effect.settle m.calls.limit below with
  | none => exact .error .unfinished h
  | some ended =>
    obtain ⟨fault, frames⟩ := ended
    cases fault with
    | some e => exact .error (.failed e) (hput frames log log')
    | none =>
      obtain ⟨count, hm, hm'⟩ := h.executed
      refine .ok true { hput frames log log' with executed := ⟨count + 1, ?_, ?_⟩ }
      · exact congrArg (· + 1) hm
      · exact congrArg (· + 1) hm'

/-- **One step**, if the instruction that is next has the same outcome. -/
theorem step_beside (h : m.Beside natives rel base base' m')
    (ho : ∀ f below inst, m.calls.frames = f :: below → f.fetch? = .ok inst →
      (outcome files natives inst f.pc { f with pc := f.pc + 1 } m.loader m.streams).Beside rel
        (outcome files natives inst f.pc { f with pc := f.pc + 1 } m'.loader m'.streams)) :
    EndBeside natives rel base base' (step files m) (step files m') := by
  have hframes : m'.calls.frames = m.calls.frames := congrArg CallStack.frames h.calls
  cases hm : m.calls.frames with
  | nil =>
    rw [hm] at hframes
    rw [step_eq_stepWith, stepWith_of_empty fetch files hm, stepWith_of_empty fetch files hframes]
    exact .ok false h
  | cons f below =>
    rw [hm] at hframes
    cases hfetch : f.fetch? with
    | error e =>
      rw [step_of_fetch_error hm hfetch, step_of_fetch_error hframes hfetch]
      exact .error (.failed e) h
    | ok inst =>
      obtain ⟨log, hstep⟩ := step_eq hm hfetch files
      obtain ⟨log', hstep'⟩ := step_eq hframes hfetch files
      rw [hstep, hstep', h.same, h.same']
      exact h.conclude (ho f below inst hm hfetch) below log log'

/-- **A run**, if each of its steps ends alike. -/
theorem run_beside (hstep : ∀ m m', m.Beside natives rel base base' m' →
      EndBeside natives rel base base' (step files m) (step files m'))
    (h : m.Beside natives rel base base' m') (limit : Nat) :
    EndBeside natives rel base base' (run files limit m) (run files limit m') :=
  endBeside_iff.2 (run_inStep (fun m m' hbeside => endBeside_iff.1 (hstep m m' hbeside))
    (fun _ _ log log' hbeside => hbeside.logged log log') limit m m' h)

/-- **The start of a program**, if the loaders find the same class and it has the same entry. -/
theorem enter_beside (h : m.Beside natives rel base base' m') {className : String}
    (hresult : (m'.loader.resolve files className).result = (m.loader.resolve files className).result)
    (hentry : ∀ c, (m.loader.resolve files className).result = .ok c →
      c.entryPoint? m'.order = c.entryPoint? m.order)
    (haround : rel ((m.loader.resolve files className).loader, m.streams)
      ((m'.loader.resolve files className).loader, m'.streams)) :
    EndBeside natives rel base base' (enter files className m) (enter files className m') := by
  obtain ⟨log, henter⟩ := enter_eq files className m
  obtain ⟨log', henter'⟩ := enter_eq files className m'
  have hentered : m'.entered files className = m.entered files className := by
    simp only [entered, hresult, h.calls]
    cases hc : (m.loader.resolve files className).result with
    | error e => rfl
    | ok c => simp only [bind, Except.bind, Class.entry, hentry c hc]
  have hput := h.put haround
  rw [henter, henter', hentered]
  cases m.entered files className with
  | ok frames => exact .ok () (hput frames log log')
  | error e =>
    rw [h.calls]
    exact .error (.failed e) (hput m.calls.frames log log')

end

end Machine

end Jvm
