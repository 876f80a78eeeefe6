import Jvm.Proofs.Frame.Values
import Jvm.Proofs.Machine.Printing

/-!
# Where stream handles come from

If all values of a machine are among some that integers and null belong to, then so are those after a step,
unless it reads a field whose value is not, or a native method gives a value that is not (`next_all`). The
standard native methods give none at all, and the standard fields hold the two streams. So a handle that has
not been read from its field is nowhere in a frame, and as `Frame.Prints` needs it on the stack, nothing is
printed to it. Main theorem `handles_from_fields`.
-/

namespace Jvm

/-- The field that the next instruction reads, if it does read a field. -/
def Frame.nextField? (f : Frame) : Option MemberRef :=
  match f.fetch? with
  | .error _ => none
  | .ok inst =>
    match inst.opcode, indexOperand inst with
    | .getstatic, .ok index => (f.owner.pool.field index).toOption
    | _, _ => none

/-- The values in the effect are all among `p`. -/
def Effect.All (p : Value → Prop) : Effect → Prop
  | .stay f => f.All p
  | .call caller callee => caller.All p ∧ callee.All p
  | .leave | .hang => True
  | .give v => p v
  | .fail _ f => f.All p

/-- The values that the native methods give are all among `p`. -/
def NativeTable.Gives (natives : NativeTable) (p : Value → Prop) : Prop :=
  ∀ method ∈ natives.methods, ∀ call streams v after, method.action call streams = .ok (some v) after → p v

namespace Machine

/-- The next step succeeds in reading the field. -/
def ReadsField (m : Machine) (files : FileSystem) (owner name : String) : Prop :=
  m.Succeeds files ∧ ∃ f ∈ m.calls.frames.head?, ∃ field ∈ f.nextField?, field.owner = owner ∧ field.name = name

/-- A step of the run does. -/
def HasRead (m : Machine) (run : List FileSystem) (owner name : String) : Prop :=
  ∃ before now later, run = before ++ now :: later ∧ (m.nexts before).ReadsField now owner name

end Machine

/-! ## Frames -/

section
variable {p : Value → Prop} {f : Frame}

theorem Frame.All.moved (h : f.All p) (pc : Nat) : Frame.All p { f with pc } := ⟨h.stack, h.locals⟩

theorem Frame.All.pushed (h : f.All p) {v : Value} (hv : p v) : (f.pushed v).All p :=
  ((confined_push hv).of_ok h rfl).2

theorem Frame.All.dropped (h : f.All p) (n : Nat) : (f.dropped n).All p :=
  ⟨fun v hv => h.stack v (List.mem_of_mem_drop hv), h.locals⟩

theorem Frame.All.operands (h : f.All p) (n : Nat) : ∀ v ∈ f.operands n, p v :=
  fun v hv => h.stack v (List.mem_of_mem_take (List.mem_reverse.1 hv))

/-- A frame begins with its arguments and nulls. -/
theorem Frame.all_ofCall (hnull : p .null) (owner : Class) (method : Method) {arguments : List Value}
    (h : ∀ v ∈ arguments, p v) : Frame.All p (.ofCall owner method arguments) := by
  refine ⟨nofun, fun v hv => ?_⟩
  rw [ofCall, List.mem_toArray] at hv
  rcases List.mem_append.1 hv with harg | hpad
  · exact h v harg
  · rw [(List.mem_replicate.1 hpad).2]
    exact hnull

/-! ## One instruction -/

variable {inst : Instruction Nat} {natives : NativeTable} {loader : Loader} {streams : Streams}

theorem Opcode.eq_getstatic {op : Opcode} (h : op.operation = .getStatic) : op = .getstatic := by
  cases op <;> simp [Opcode.operation] at h ⊢

/-- What a field instruction pushes is the value of the field that it names. -/
theorem Frame.nextField?_of_staticField {g : Frame} {v : Value} (hfetch : f.fetch? = .ok inst)
    (hop : inst.opcode = .getstatic) (hg : g.owner = f.owner) (h : g.staticField natives inst = .ok v) :
    ∃ field ∈ f.nextField?, natives.field? field.owner field.name = some v := by
  obtain ⟨index, hindex, h⟩ := exists_of_bind_ok h
  obtain ⟨field, hfield, h⟩ := exists_of_bind_ok h
  rw [hg] at hfield
  refine ⟨field, ?_, ?_⟩
  · simp only [nextField?, hfetch, hop, hindex, ok_of_mapError_ok hfield]
    rfl
  · split at h
    · rename_i hvalue
      cases h
      exact hvalue
    · cases h

namespace Outcome

theorem all_within {α : Type} {act : OnFrame α} {q : α → Prop} {next : α → Frame → Effect}
    (h : Frame.Confined p q act) (hnext : ∀ a g, q a → g.All p → (next a g).All p) (hf : f.All p) :
    (within act next f).All p := by
  unfold within
  cases hact : act f with
  | ok a g =>
    obtain ⟨ha, hg⟩ := h.of_ok hf hact
    exact hnext a g ha hg
  | error e g => exact h.of_error hf hact

theorem all_native {action : NativeAction} {call : NativeCall}
    (h : ∀ v after, action call streams = .ok (some v) after → p v) (hf : f.All p) :
    (native action call f loader streams).effect.All p := by
  unfold native
  cases hact : action call streams with
  | error e after => exact hf
  | ok result after =>
    cases result with
    | none => exact hf
    | some v => exact hf.pushed (h v after hact)

theorem all_bytecode (hnull : p .null) (files : FileSystem) (target : MemberRef) (hf : f.All p) :
    (bytecode files target f loader streams).effect.All p := by
  unfold bytecode
  simp only
  cases (loader.findMethod files target).result with
  | error stop =>
    cases stop with
    | unfinished => trivial
    | failed e => exact hf
  | ok found =>
    obtain ⟨owner, method⟩ := found
    simp only
    split
    · exact hf
    · split
      · exact hf
      · exact ⟨hf.dropped _, Frame.all_ofCall hnull owner method (hf.operands _)⟩

theorem all_invokeStatic (hnull : p .null) (hgives : natives.Gives p) (files : FileSystem) (hf : f.All p) :
    (invokeStatic files natives inst f loader streams).effect.All p := by
  unfold invokeStatic
  cases f.callSite inst with
  | error e => exact hf
  | ok site =>
    simp only
    cases hmethod : natives.method? .static site.1.owner site.1.name site.2.length with
    | none => exact all_bytecode hnull files site.1 hf
    | some action =>
      obtain ⟨method, hmem, rfl⟩ := NativeTable.mem_of_method? hmethod
      simp only
      split
      · exact hf
      · exact all_native (hgives method hmem _ streams) (hf.dropped _)

theorem all_invokeVirtual (hgives : natives.Gives p) (hf : f.All p) :
    (invokeVirtual natives inst f loader streams).effect.All p := by
  unfold invokeVirtual
  cases f.callSite inst with
  | error e => exact hf
  | ok site =>
    simp only
    cases hmethod : natives.method? .virtual site.1.owner site.1.name site.2.length with
    | none => exact hf
    | some action =>
      obtain ⟨method, hmem, rfl⟩ := NativeTable.mem_of_method? hmethod
      simp only
      split
      · exact hf
      · split
        · exact hf.dropped _
        · exact all_native (hgives method hmem _ streams) (hf.dropped _)

end Outcome

/-- **One instruction.** -/
theorem all_outcome (hint : ∀ i, p (.int i)) (hnull : p .null) (hgives : natives.Gives p) (files : FileSystem)
    (pc : Nat) (hread : inst.opcode = .getstatic → ∀ v, f.staticField natives inst = .ok v → p v) (hf : f.All p) :
    (outcome files natives inst pc f loader streams).effect.All p := by
  unfold outcome
  cases hop : inst.opcode.operation with
  | within op => exact Outcome.all_within (Frame.perform_confined hint hnull op inst) (fun _ _ _ hg => hg) hf
  | getStatic =>
    simp only
    cases hfield : f.staticField natives inst with
    | error e => exact hf
    | ok v => exact hf.pushed (hread (Opcode.eq_getstatic hop) v hfield)
  | invokeStatic => exact Outcome.all_invokeStatic hnull hgives files hf
  | invokeVirtual => exact Outcome.all_invokeVirtual hgives hf
  | returnVoid => trivial
  | returnInt => exact Outcome.all_within Frame.confined_popInt (fun i _ _ _ => hint i) hf
  | returnReference => exact Outcome.all_within Frame.confined_popReference (fun _ _ hv _ => hv) hf
  | unsupported => exact hf

/-- An effect brings no other values into the frames. -/
theorem Effect.All.settle {effect : Effect} {limit : Nat} {below frames : List Frame} {fault : Option Error}
    (h : effect.All p) (hbelow : ∀ f ∈ below, f.All p) (hsettle : effect.settle limit below = some (fault, frames)) :
    ∀ f ∈ frames, f.All p := by
  cases effect with
  | stay g | fail e g =>
    cases hsettle
    exact List.forall_mem_cons.2 ⟨h, hbelow⟩
  | call caller callee =>
    have hcaller : ∀ f ∈ caller :: below, f.All p := List.forall_mem_cons.2 ⟨h.1, hbelow⟩
    simp only [Effect.settle] at hsettle
    split at hsettle
    · cases hsettle
      exact hcaller
    · cases hsettle
      exact List.forall_mem_cons.2 ⟨h.2, hcaller⟩
  | leave =>
    cases hsettle
    exact hbelow
  | give v =>
    cases below with
    | nil =>
      cases hsettle
      intro f hf
      cases hf
    | cons caller rest =>
      cases hsettle
      obtain ⟨hcaller, hrest⟩ := List.forall_mem_cons.1 hbelow
      exact List.forall_mem_cons.2 ⟨hcaller.pushed h, hrest⟩
  | hang => cases hsettle

end

/-- The standard native methods have no values. -/
theorem NativeTable.gives_standard (p : Value → Prop) : standard.Gives p := by
  intro method hmem call streams v after hact
  simp only [standard, List.mem_cons, List.not_mem_nil, or_false] at hmem
  rcases hmem with rfl | rfl | rfl
  · cases Print.givesNothing_print call _ _ _ hact
  · cases Print.givesNothing_println call _ _ _ hact
  · cases Print.givesNothing_println call _ _ _ hact

/-! ## Steps -/

namespace Machine

section
variable {m : Machine} {files : FileSystem} {p : Value → Prop} {handle : StreamHandle}

/-- **One step.** -/
theorem next_all (hint : ∀ i, p (.int i)) (hnull : p .null) (hgives : m.natives.Gives p)
    (hread : ∀ owner name v, m.ReadsField files owner name → m.natives.field? owner name = some v → p v)
    (h : ∀ f ∈ m.calls.frames, f.All p) : ∀ f ∈ (m.next files).calls.frames, f.All p := by
  have hstepped := next_stepped m files
  generalize m.next files = after at hstepped
  cases hstepped with
  | nothing => exact h
  | @carried f below inst o _ _ _ _ hm hfetch ho hsettle =>
    rw [hm] at h
    obtain ⟨hf, hbelow⟩ := List.forall_mem_cons.1 h
    have heffect : o.effect.All p := by
      rw [← ho]
      refine all_outcome hint hnull hgives files f.pc (fun hop v hv => ?_) (hf.moved _)
      -- pushing the value of a field is all that the instruction does, so it succeeds
      obtain ⟨field, hfield, hvalue⟩ := Frame.nextField?_of_staticField hfetch hop rfl hv
      have hstay : outcome files m.natives inst f.pc { f with pc := f.pc + 1 } m.loader m.streams =
          ⟨.stay (Frame.pushed { f with pc := f.pc + 1 } v), m.loader, m.streams⟩ := by
        unfold outcome
        simp only [hop, Opcode.operation, hv]
      exact hread field.owner field.name v
        ⟨succeeds_of_stay hm hfetch hstay, f, by rw [hm]; rfl, field, hfield, rfl, rfl⟩ hvalue
    exact heffect.settle hbelow hsettle

/-- Nothing is printed to a stream whose handle is nowhere. -/
theorem streams_next_of_absent (hnatives : m.natives = .standard)
    (h : ∀ f ∈ m.calls.frames, f.All (· ≠ .stream handle)) :
    (m.next files).streams.get handle = m.streams.get handle := by
  have hstepped := next_stepped m files
  generalize m.next files = after at hstepped
  cases hstepped with
  | nothing => rfl
  | @carried f below inst o _ _ _ _ hm _ ho =>
    show o.streams.get handle = m.streams.get handle
    have hf : Frame.All (· ≠ .stream handle) { f with pc := f.pc + 1 } :=
      (h f (by rw [hm]; exact List.mem_cons_self)).moved _
    rw [← ho, hnatives]
    by_cases hprints : ∃ other text, Frame.Prints { f with pc := f.pc + 1 } inst other text
    · obtain ⟨other, text, hprints⟩ := hprints
      have hne : handle ≠ other := by
        rintro rfl
        exact hf.stack _ hprints.mem_stack rfl
      obtain ⟨g, houtcome⟩ := outcome_of_prints files f.pc hprints m.loader m.streams
      rw [houtcome]
      rcases Outcome.native_emit other text g m.loader m.streams with hsame | hplus
      · rw [hsame]
      · rw [hplus, Streams.get_plus_of_ne hne]
    · rw [streams_outcome files f.pc (fun other text h => hprints ⟨other, text, h⟩)]

/-! ## Runs -/

theorem HasRead.of_next {now : FileSystem} {later : List FileSystem} {owner name : String}
    (h : (m.next now).HasRead later owner name) : m.HasRead (now :: later) owner name := by
  obtain ⟨before, now', later', rfl, hreads⟩ := h
  exact ⟨now :: before, now', later', rfl, hreads⟩

/-- **A run** that does not read a stream's field has its handle nowhere, and writes nothing to it. -/
theorem nexts_untouched {run : List FileSystem} (hnatives : m.natives = .standard)
    (h : ∀ f ∈ m.calls.frames, f.All (· ≠ .stream handle))
    (hread : ¬m.HasRead run "java/lang/System" handle.field) :
    (∀ f ∈ (m.nexts run).calls.frames, f.All (· ≠ .stream handle)) ∧
      (m.nexts run).streams.get handle = m.streams.get handle := by
  induction run generalizing m with
  | nil => exact ⟨h, rfl⟩
  | cons now later ih =>
    have hnow : ∀ f ∈ (m.next now).calls.frames, f.All (· ≠ .stream handle) := by
      refine next_all nofun nofun (hnatives ▸ NativeTable.gives_standard _) (fun owner name v hreads hvalue => ?_) h
      rw [hnatives] at hvalue
      obtain ⟨other, rfl, rfl, rfl⟩ := NativeTable.standard_field? hvalue
      rintro ⟨⟩
      exact hread ⟨[], now, later, rfl, hreads⟩
    obtain ⟨hframes, hstreams⟩ :=
      ih ((natives_next m now).trans hnatives) hnow fun hlater => hread hlater.of_next
    exact ⟨hframes, hstreams.trans (streams_next_of_absent hnatives h)⟩

/-- **Handles come from fields.** From the start of a program, and also beyond errors: while `System.out`
has not been read, no frame has the handle of the output stream, and nothing is written to the stream; the
same goes for `System.err`. While no field has been read, there are only integers and nulls. -/
theorem handles_from_fields (hnatives : m.natives = .standard) (files : FileSystem) (className : String) :
    (∀ run handle, ¬(m.leftBy (prepare files className)).HasRead run "java/lang/System" handle.field →
        (∀ f ∈ (m.begun files className run).calls.frames, f.All (· ≠ .stream handle)) ∧
          (m.begun files className run).streams.get handle = m.streams.get handle) ∧
      (∀ run, (∀ owner name, ¬(m.leftBy (prepare files className)).HasRead run owner name) →
        (∀ f ∈ (m.begun files className run).calls.frames, f.All fun v => v = .null ∨ ∃ i, v = .int i) ∧
          (m.begun files className run).streams = m.streams) ∧
      ∀ limit history, (∀ asked ∈ history, asked.2.GoesOn) →
        ∃ run log, m.afterAll ((files, .start className limit) :: history) =
          { m.begun files className run with log } := by
  obtain ⟨hsame, hstreams, hcalls⟩ := leftBy_prepare files className m
  have huntouched : ∀ run handle,
      ¬(m.leftBy (prepare files className)).HasRead run "java/lang/System" handle.field →
        (∀ f ∈ (m.begun files className run).calls.frames, f.All (· ≠ .stream handle)) ∧
          (m.begun files className run).streams.get handle = m.streams.get handle := by
    intro run handle hread
    rw [← hstreams]
    refine nexts_untouched (hsame.trans hnatives) (fun f hf => ?_) hread
    obtain ⟨owner, method, rfl⟩ := hcalls f hf
    exact Frame.all_ofCall nofun owner method nofun
  refine ⟨huntouched, fun run hread => ?_, fun limit history => afterAll_start files className m limit⟩
  obtain ⟨hout, houtWritten⟩ := huntouched run .stdout (hread _ _)
  obtain ⟨herr, herrWritten⟩ := huntouched run .stderr (hread _ _)
  have hvalue : ∀ v : Value, v ≠ .stream .stdout → v ≠ .stream .stderr → v = .null ∨ ∃ i, v = .int i := by
    intro v hstdout hstderr
    cases v with
    | int i => exact .inr ⟨i, rfl⟩
    | null => exact .inl rfl
    | stream handle => cases handle <;> contradiction
  refine ⟨fun f hf => ⟨fun v hv => ?_, fun v hv => ?_⟩, ?_⟩
  · exact hvalue v ((hout f hf).stack v hv) ((herr f hf).stack v hv)
  · exact hvalue v ((hout f hf).locals v hv) ((herr f hf).locals v hv)
  · exact (congrArg₂ Streams.mk houtWritten herrWritten : _)

end

end Machine

/-! ### A program that prints to one stream -/

/-- The program reads `System.out`, prints, fails, and is stepped on. It never reads `System.err`. -/
theorem handles_from_fields_halting :
    Sample.idle.natives = .standard ∧
      (Sample.idle.begun Sample.haltingFiles "P" (List.replicate 7 Sample.haltingFiles)).streams.out.written =
        "5\n5\n" ∧
      (∀ f ∈ (Sample.idle.begun Sample.haltingFiles "P" (List.replicate 7 Sample.haltingFiles)).calls.frames,
        f.All (· ≠ .stream .stderr)) ∧
      (Sample.idle.begun Sample.haltingFiles "P" (List.replicate 7 Sample.haltingFiles)).streams.err = {} := by
  have hfields : ∀ i < 7, ∀ f ∈ (Sample.idle.begun Sample.haltingFiles "P"
      (List.replicate i Sample.haltingFiles)).calls.frames.head?, ∀ field ∈ f.nextField?, field.name ≠ "err" := by
    decide +kernel
  have hread : ¬(Sample.idle.leftBy (Machine.prepare Sample.haltingFiles "P")).HasRead
      (List.replicate 7 Sample.haltingFiles) "java/lang/System" "err" := by
    rintro ⟨before, now, later, hrun, -, f, hf, field, hfield, -, hname⟩
    obtain ⟨hlength, hbefore, -⟩ := List.append_eq_replicate_iff.1 hrun.symm
    rw [List.length_cons] at hlength
    rw [hbefore] at hf
    exact hfields before.length (by omega) f hf field hfield hname
  obtain ⟨huntouched, -⟩ := Machine.handles_from_fields (m := Sample.idle) rfl Sample.haltingFiles "P"
  obtain ⟨hframes, hstreams⟩ := huntouched (List.replicate 7 Sample.haltingFiles) .stderr hread
  exact ⟨rfl, by decide +kernel, hframes, hstreams⟩

end Jvm
