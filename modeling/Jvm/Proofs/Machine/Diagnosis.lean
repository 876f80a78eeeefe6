import Jvm.Proofs.Machine.Reachable

/-!
# Errors that loaded code cannot cause

A machine checks the kind of each operand, that there is a frame to work on, that its method has code
and that the counter is inside the code. Classes come into a machine by way of the loader, which has
decoded their code, and frames by way of calls, which look for code. So no check fails but the last
one, and that fails only right behind the last instruction: no branch leads out of the code.

`Error.Ordinary` are the errors that none of these checks reports. An instruction of decoded code
raises no others (`ordinary_of_raises`), so a step that fails has an ordinary error or has run off the
end (`explained_of_step`). Main theorem `loaded_code_safe`.
-/

namespace Jvm

/-- The kinds of errors that native methods report. -/
def Error.isNative : Error → Bool
  | .typeMismatch _ _ | .unsupported _ | .arithmetic _ | .io _ => true
  | _ => false

/-- An error that no check of decoded code reports. -/
structure Error.Ordinary (natives : NativeTable) (e : Error) : Prop where
  operand : ∀ opcode operand, e ≠ .invalidOperand opcode operand
  decoded : ∀ owner method cause, e ≠ .defect (.invalidCode owner method cause)
  frame : e ≠ .invalidFrameAccess .noFrame
  inside : ∀ pc owner method, e ≠ .invalidFrameAccess (.pastEnd pc owner method)
  /-- A native method may say what it likes is unsupported. -/
  code : ∀ owner method, e = .unsupported (.noCode owner method) → natives.Reports e

namespace Machine

/-- The running frame stands right behind the last instruction of its method. -/
def RunsOff (m : Machine) (pc : Nat) (owner method : String) : Prop :=
  ∃ f below code, m.calls.frames = f :: below ∧ f.owner.name = owner ∧ f.method.name = method ∧
    f.method.code = some code ∧ f.pc = pc ∧ pc = code.size

/-- The error is an ordinary one, or the running frame has run off the end of its code. -/
def Explained (natives : NativeTable) (e : Error) (m : Machine) : Prop :=
  e.Ordinary natives ∨
    ∃ pc owner method, e = .invalidFrameAccess (.pastEnd pc owner method) ∧ m.RunsOff pc owner method

end Machine

section
variable {natives : NativeTable} {inst : Instruction Nat} {e : Error}

theorem Error.ordinary_of_native (hreports : natives.Reports e) (h : e.isNative = true) : e.Ordinary natives := by
  cases e with
  | unsupported what => exact ⟨by simp, by simp, by simp, by simp, fun _ _ _ => hreports⟩
  | typeMismatch | arithmetic | io => constructor <;> simp
  | _ => cases h

/-- An operation within a frame. -/
theorem FrameOperation.ordinary_of_raises {op : FrameOperation}
    (hkind : ∀ kind, op.needs = some kind → inst.operand.kind = kind) (h : op.Raises inst e) :
    e.Ordinary natives := by
  cases h with
  | misfit hneeds hmisfits => exact absurd (hkind _ hneeds) hmisfits.2
  | _ => constructor <;> simp

/-- An instruction whose operand is of the kind that it needs. -/
theorem Instruction.ordinary_of_raises (hnatives : ∀ e, natives.Reports e → e.isNative = true)
    (hkind : ∀ kind, inst.opcode.operation.needs = some kind → inst.operand.kind = kind)
    (h : inst.Raises natives e) : e.Ordinary natives := by
  cases h with
  | within hop hraises =>
    rw [hop] at hkind
    exact FrameOperation.ordinary_of_raises hkind hraises
  | misfit hneeds hmisfits => exact absurd (hkind _ hneeds) hmisfits.2
  | native hreports => exact Error.ordinary_of_native hreports (hnatives e hreports)
  | _ => constructor <;> simp

end

/-! ## Frames -/

/-- In a proper frame, an instruction has an operand of the kind that it needs. -/
theorem Frame.Proper.kind {loader : Loader} {f : Frame} (h : f.Proper loader) (hl : loader.Used)
    {inst : Instruction Nat} (hfetch : f.fetch? = .ok inst) {kind : Operand.Kind}
    (hneeds : inst.opcode.operation.needs = some kind) : inst.operand.kind = kind := by
  obtain ⟨code, bytes, hcode, -, hdecode⟩ := h.exists_bytes hl
  exact Code.kind_of_decode hdecode (Array.mem_of_getElem? (getElem?_of_fetch? hcode hfetch)) hneeds

/-- A proper frame that cannot fetch has run off the end. -/
theorem Frame.Proper.fetch?_error {loader : Loader} {f : Frame} (h : f.Proper loader) {e : Error}
    (hfetch : f.fetch? = .error e) :
    ∃ code, f.method.code = some code ∧ f.pc = code.size ∧
      e = .invalidFrameAccess (.pastEnd f.pc f.owner.name f.method.name) := by
  obtain ⟨code, hcode, hpc⟩ := h.code
  simp only [fetch?, hcode] at hfetch
  split at hfetch
  · cases hfetch
  · rename_i hnone
    cases hfetch
    have hge := Array.getElem?_eq_none_iff.1 hnone
    exact ⟨code, hcode, Nat.le_antisymm hpc hge, rfl⟩

/-- The branches of a proper frame stay inside its code. -/
theorem Frame.Proper.branch_lt {loader : Loader} {f : Frame} (h : f.Proper loader) (hl : loader.Used) :
    ∃ code, f.method.code = some code ∧
      ∀ inst ∈ code, ∀ target, inst.operand = .branch target → target < code.size := by
  obtain ⟨code, bytes, hcode, -, hdecode⟩ := h.exists_bytes hl
  exact ⟨code, hcode, fun inst hinst target => Code.branch_lt_of_decode hdecode hinst⟩

/-! ## Requests -/

namespace Machine

section
variable {m₀ m m' : Machine} {known : List Invocation} {files : FileSystem} {e : Error}

/-- **A step that fails.** -/
theorem Sound.explained_of_step (h : Sound m₀ known m)
    (hnatives : ∀ e, m₀.natives.Reports e → e.isNative = true)
    (hstep : step files m = .error (.failed e) m') : Explained m₀.natives e m' := by
  obtain ⟨f, below, hm⟩ := exists_frame_of_step hstep
  have hf : f.Proper m.loader := h.stacked.proper f (by rw [hm]; exact List.mem_cons_self)
  obtain ⟨-, hfailure⟩ := stepFailure_of_step hm hstep
  generalize m'.loader = later at hfailure
  generalize hframes : m'.calls.frames = frames at hfailure
  cases hfailure with
  | fetch hfetch =>
    obtain ⟨code, hcode, hpc, rfl⟩ := hf.fetch?_error hfetch
    exact .inr ⟨_, _, _, rfl, f, below, code, hframes, rfl, rfl, hcode, rfl, hpc⟩
  | raised hfetch _ hraises =>
    rw [h.natives] at hraises
    exact .inl (Instruction.ordinary_of_raises hnatives (fun kind => hf.kind h.used hfetch) hraises)
  | noCaller =>
    left
    constructor <;> simp

/-- A run fails in one of its steps. -/
theorem Sound.explained_of_run (h : Sound m₀ known m)
    (hnatives : ∀ e, m₀.natives.Reports e → e.isNative = true) {limit : Nat}
    (hrun : Machine.run files limit m = .error (.failed e) m') : Explained m₀.natives e m' := by
  induction limit generalizing m known with
  | zero => cases hrun
  | succ limit ih =>
    have hnext := h.next files
    unfold Machine.next at hnext
    cases hstep : step files m with
    | error stop after =>
      rw [run_of_error limit hstep] at hrun
      cases hrun
      exact h.explained_of_step hnatives hstep
    | ok more after =>
      rw [hstep] at hnext
      cases more with
      | true =>
        rw [run_of_more limit hstep] at hrun
        exact ih hnext hrun
      | false =>
        obtain ⟨log, hend⟩ := run_of_end limit hstep
        rw [hend] at hrun
        cases hrun

theorem ordinary_of_entered {className : String} {natives : NativeTable} (h : m.entered files className = .error e) :
    e.Ordinary natives := by
  rcases error_of_bind_error h with hc | ⟨c, -, h⟩
  · obtain ⟨misses, -, rfl⟩ := exists_of_mapError_error hc
    constructor <;> simp
  · rcases error_of_bind_error h with hentry | ⟨f, -, h⟩
    · unfold Class.entry at hentry
      split at hentry
      · cases hentry
        constructor <;> simp
      · split at hentry
        · cases hentry
          constructor <;> simp
        · cases hentry
    · by_cases hlimit : m.calls.limit ≤ m.calls.depth
      · rw [if_pos hlimit] at h
        cases h
        constructor <;> simp
      · rw [if_neg hlimit] at h
        cases h

theorem ordinary_of_enter {className : String} {natives : NativeTable}
    (h : enter files className m = .error (.failed e) m') : e.Ordinary natives := by
  obtain ⟨log, henter⟩ := enter_eq files className m
  rw [henter] at h
  cases hentered : m.entered files className with
  | ok frames =>
    rw [hentered] at h
    cases h
  | error e' =>
    rw [hentered] at h
    cases h
    exact ordinary_of_entered hentered

/-- **A request that fails.** -/
theorem Sound.explained (h : Sound m₀ known m) (hnatives : ∀ e, m₀.natives.Reports e → e.isNative = true)
    {request : Request} (hfailed : request.perform files m = .error (.failed e) m') :
    Explained m₀.natives e m' := by
  cases request with
  | enter className => exact .inl (ordinary_of_enter hfailed)
  | step =>
    replace hfailed : (step files >>= fun _ => pure ()) m = .error (.failed e) m' := hfailed
    cases hstep : step files m with
    | ok more after =>
      rw [bind_of_ok hstep] at hfailed
      cases hfailed
    | error stop after =>
      rw [bind_of_error hstep] at hfailed
      cases hfailed
      exact h.explained_of_step hnatives hstep
  | run limit => exact h.explained_of_run hnatives hfailed
  | start className limit =>
    replace hfailed : (Machine.prepare files className >>= fun _ => Machine.run files limit) m =
      .error (.failed e) m' := hfailed
    obtain ⟨log, hprepare⟩ := prepare_eq files className m
    have hentered := h.prepare files className
    unfold leftBy at hentered
    cases hresult : Machine.prepare files className m with
    | error stop entered =>
      rw [bind_of_error hresult] at hfailed
      cases hfailed
      exact .inl (ordinary_of_enter (hprepare.symm.trans hresult))
    | ok _ entered =>
      rw [hresult] at hentered
      rw [bind_of_ok hresult] at hfailed
      exact hentered.explained_of_run hnatives hfailed

/-- **Loaded code passes its checks.** In no machine that a host can reach does a frame lack code or
does a branch lead out of it; and no request ends in an error of the other checks. Where the counter
is past the end, it is right behind the last instruction. -/
theorem loaded_code_safe (h : m₀.Fresh) (hnatives : ∀ e, m₀.natives.Reports e → e.isNative = true)
    (history : History) :
    (∀ f ∈ (m₀.afterAll history).calls.frames,
      (∀ owner method, f.fetch? ≠ .error (.unsupported (.noCode owner method))) ∧
        ∃ code, f.method.code = some code ∧
          ∀ inst ∈ code, ∀ target, inst.operand = .branch target → target < code.size) ∧
      ∀ files request e m', Request.perform files request (m₀.afterAll history) = .error (.failed e) m' →
        (∀ opcode operand, e ≠ .invalidOperand opcode operand) ∧
        (∀ owner method cause, e ≠ .defect (.invalidCode owner method cause)) ∧
        e ≠ .invalidFrameAccess .noFrame ∧
        (∀ owner method, e = .unsupported (.noCode owner method) → m₀.natives.Reports e) ∧
        ∀ pc owner method, e = .invalidFrameAccess (.pastEnd pc owner method) → m'.RunsOff pc owner method := by
  have hsound := h.sound.afterAll history
  refine ⟨fun f hf => ?_, fun files request e m' hfailed => ?_⟩
  · have hproper := hsound.stacked.proper f hf
    refine ⟨fun owner method hfetch => ?_, hproper.branch_lt hsound.used⟩
    obtain ⟨_, _, _, he⟩ := hproper.fetch?_error hfetch
    cases he
  · rcases hsound.explained hnatives hfailed with hordinary | ⟨pc, owner, method, rfl, hoff⟩
    · exact ⟨hordinary.operand, hordinary.decoded, hordinary.frame, hordinary.code,
        fun pc owner method he => absurd he (hordinary.inside pc owner method)⟩
    · refine ⟨by simp, by simp, by simp, by simp, ?_⟩
      rintro _ _ _ ⟨⟩
      exact hoff

end

end Machine

/-! ## The standard native methods -/

namespace Print

/-- Whenever the computation fails, it is with an error that native methods have. -/
def FailsNatively {α : Type} (act : Output α) : Prop :=
  ∀ streams e after, act streams = .error e after → e.isNative = true

theorem FailsNatively.bind {α β : Type} {act : Output α} {k : α → Output β} (h : FailsNatively act)
    (hk : ∀ a, FailsNatively (k a)) : FailsNatively (act >>= k) := by
  intro streams e after he
  rcases error_of_bind_eq_error he with hact | ⟨a, middle, -, hrest⟩
  · exact h streams e after hact
  · exact hk a middle e after hrest

theorem failsNatively_receiver (call : NativeCall) :
    FailsNatively (MonadExcept.ofExcept (receiver call) : Output StreamHandle) := by
  intro streams e after he
  have hreceiver := error_of_ofExcept he
  unfold receiver at hreceiver
  split at hreceiver <;> cases hreceiver <;> rfl

theorem failsNatively_write (handle : StreamHandle) (text : String) : FailsNatively (Streams.write handle text) := by
  intro streams e after he
  unfold Streams.write at he
  simp only at he
  split at he <;> cases he
  rfl

/-- Both methods flush at the end. -/
theorem failsNatively_flush (handle : StreamHandle) :
    FailsNatively (do Streams.flush handle; return none : Output (Option Value)) := by
  refine .bind (fun streams e after he => ?_) fun _ streams e after he => ?_
  · unfold Streams.flush at he
    split at he <;> cases he
    rfl
  · cases he

theorem failsNatively_print (call : NativeCall) : FailsNatively (print call) := by
  refine (failsNatively_receiver call).bind fun handle => ?_
  cases argument? call with
  | none => exact failsNatively_flush handle
  | some text => exact (failsNatively_write handle text).bind fun _ => failsNatively_flush handle

theorem failsNatively_println (call : NativeCall) : FailsNatively (println call) := by
  refine (failsNatively_receiver call).bind fun handle => ?_
  have hend := (failsNatively_write handle "\n").bind fun _ => failsNatively_flush handle
  cases argument? call with
  | none => exact hend
  | some text => exact (failsNatively_write handle text).bind fun _ => hend

end Print

theorem NativeTable.isNative_of_standard {e : Error} (h : standard.Reports e) : e.isNative = true := by
  obtain ⟨method, hmem, call, streams, streams', herror⟩ := h
  simp only [standard, List.mem_cons, List.not_mem_nil, or_false] at hmem
  rcases hmem with rfl | rfl | rfl
  · exact Print.failsNatively_print call _ _ _ herror
  · exact Print.failsNatively_println call _ _ _ herror
  · exact Print.failsNatively_println call _ _ _ herror

/-! ### A program without a return -/

namespace Sample

/-- The file of a class `C` whose `main` is a single `nop`. -/
def nopFile : Bytes := [
  0xca, 0xfe, 0xba, 0xbe, 0x00, 0x00, 0x00, 0x34,
  -- the constants: the names and the class 2
  0x00, 0x06, 0x01, 0x00, 0x01, 0x43, 0x07, 0x00, 0x01, 0x01, 0x00, 0x04, 0x6d, 0x61, 0x69, 0x6e,
  0x01, 0x00, 0x16, 0x28, 0x5b, 0x4c, 0x6a, 0x61, 0x76, 0x61, 0x2f, 0x6c, 0x61, 0x6e, 0x67, 0x2f,
  0x53, 0x74, 0x72, 0x69, 0x6e, 0x67, 0x3b, 0x29, 0x56, 0x01, 0x00, 0x04, 0x43, 0x6f, 0x64, 0x65,
  -- this class, without a superclass
  0x00, 0x21, 0x00, 0x02, 0x00, 0x00, 0x00, 0x00, 0x00, 0x00, 0x00, 0x01,
  -- `main`
  0x00, 0x09, 0x00, 0x03, 0x00, 0x04, 0x00, 0x01, 0x00, 0x05, 0x00, 0x00, 0x00, 0x0d, 0x00, 0x00,
  0x00, 0x01, 0x00, 0x00, 0x00, 0x01, 0x00, 0x00, 0x00, 0x00, 0x00,
  0x00, 0x00]

/-- There is no other file. -/
def nopFiles : FileSystem := .ofRecord [("r/C.class", .ok nopFile)]

end Sample

/-- The program runs off its end, behind the only instruction. -/
theorem loaded_code_safe_nop :
    ∃ m', Request.perform Sample.nopFiles (.start "C" 5) Sample.idle =
        .error (.failed (.invalidFrameAccess (.pastEnd 1 "C" "main"))) m' ∧
      m'.RunsOff 1 "C" "main" := by
  have hfresh : Sample.idle.Fresh := ⟨rfl, .fresh _⟩
  have hends : (match Request.perform Sample.nopFiles (.start "C" 5) Sample.idle with
    | .error (.failed e) _ => e == .invalidFrameAccess (.pastEnd 1 "C" "main")
    | _ => false) = true := by decide +kernel
  obtain ⟨-, hsafe⟩ := Machine.loaded_code_safe hfresh (fun _ => NativeTable.isNative_of_standard) []
  split at hends
  · rename_i e m' hfailed
    obtain rfl := eq_of_beq hends
    obtain ⟨-, -, -, -, hoff⟩ := hsafe _ _ _ _ hfailed
    exact ⟨m', hfailed, hoff _ _ _ rfl⟩
  · cases hends

end Jvm
