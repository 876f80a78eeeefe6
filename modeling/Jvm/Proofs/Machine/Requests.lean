import Jvm.Proofs.Entry
import Jvm.Proofs.Machine.Failure

/-!
# What a host can ask of a machine

A host starts a program, enters it without running it, steps and runs, in any order and also after
errors; a `Request` is one of these. `afterAll` is the machine after a history of requests, each with
the files that it finds.

To talk about where frames come from, `invocationsAfterAll` keeps the frames of a machine as they were
pushed, beside the machine and without an influence on it.

The equations at the end say what entering a program does, without the monads.
-/

namespace Jvm

/-- Something that a host asks of a machine. A run that does not end by itself is given up after
`limit` steps. -/
inductive Request where
  | start (className : String) (limit : Nat)
  | enter (className : String)
  | step
  | run (limit : Nat)
deriving DecidableEq, Repr

namespace Request

/-- Does what is asked. -/
def perform (files : FileSystem) : Request → Exec Unit
  | .start className limit => Machine.start files className limit
  | .enter className => Machine.enter files className
  | .step => do let _ ← Machine.step files
  | .run limit => Machine.run files limit

/-- Whether the request pushes a frame onto those that are there. -/
def isEnter : Request → Bool
  | .enter _ => true
  | _ => false

/-- Whether the request goes on with the frames that are there. -/
def continues : Request → Bool
  | .step | .run _ => true
  | _ => false

end Request

/-- Requests, each with the files that it finds. -/
abbrev History := List (FileSystem × Request)

/-! ## Where frames come from -/

/-- Why a frame was pushed. -/
inductive Origin where
  /-- A program was entered. -/
  | entry
  /-- An instruction has called the method. -/
  | call
deriving DecidableEq, Repr

/-- Number of locals that a frame of the method has. -/
def Origin.slots (origin : Origin) (method : Method) : Nat :=
  match origin with
  | .entry => method.maxLocals.toNat
  | .call => max method.maxLocals.toNat method.argumentCount

/-- A frame as it was pushed. -/
structure Invocation where
  origin : Origin
  frame : Frame
deriving DecidableEq, Repr

/-- The invocations under way once the number of frames has gone from `before` to that of `frames`:
new frames are on top, and so are those that have gone. -/
def Invocation.follow (origin : Origin) (known : List Invocation) (before : Nat) (frames : List Frame) :
    List Invocation :=
  (frames.take (frames.length - before)).map (⟨origin, ·⟩) ++ known.drop (before - frames.length)

namespace Machine

/-- The machine after a request. -/
def after (m : Machine) (files : FileSystem) (request : Request) : Machine := m.leftBy (request.perform files)

/-- The machine after a history. -/
def afterAll : Machine → History → Machine
  | m, [] => m
  | m, (files, request) :: rest => (m.after files request).afterAll rest

/-- The invocations after a run. -/
def invocationsAfterRun (files : FileSystem) : (limit : Nat) → List Invocation → Machine → List Invocation
  | 0, known, _ => known
  | limit + 1, known, m =>
    let reached := Invocation.follow .call known m.calls.depth (m.next files).calls.frames
    match step files m with
    | .ok true after => invocationsAfterRun files limit reached after
    | _ => reached

/-- The invocations after a request. -/
def invocationsAfter (known : List Invocation) (m : Machine) (files : FileSystem) : Request → List Invocation
  | .start className limit =>
    let entered := Invocation.follow .entry [] 0 (m.leftBy (prepare files className)).calls.frames
    match prepare files className m with
    | .ok _ after => invocationsAfterRun files limit entered after
    | .error _ _ => entered
  | .enter className => Invocation.follow .entry known m.calls.depth (m.leftBy (enter files className)).calls.frames
  | .step => Invocation.follow .call known m.calls.depth (m.next files).calls.frames
  | .run limit => invocationsAfterRun files limit known m

/-- The invocations after a history. -/
def invocationsAfterAll : List Invocation → Machine → History → List Invocation
  | known, _, [] => known
  | known, m, (files, request) :: rest =>
    invocationsAfterAll (invocationsAfter known m files request) (m.after files request) rest

/-- Programs are entered only where no frame is left. -/
def EntersWhenIdle : Machine → History → Prop
  | _, [] => True
  | m, (files, request) :: rest =>
    (request.isEnter = true → m.calls.frames = []) ∧ (m.after files request).EntersWhenIdle rest

theorem answer_of_inStep {rel : Machine → Machine → Prop} {α : Type} {act act' : Exec α} {m m' : Machine}
    (h : EndInStep rel (act m) (act' m')) : m'.answer act' = m.answer act := by
  unfold answer
  generalize act m = r, act' m' = r' at h
  cases h <;> rfl

theorem leftBy_of_inStep {rel : Machine → Machine → Prop} {α : Type} {act act' : Exec α} {m m' : Machine}
    (h : EndInStep rel (act m) (act' m')) : rel (m.leftBy act) (m'.leftBy act') := by
  unfold leftBy
  generalize act m = r, act' m' = r' at h
  cases h <;> assumption

theorem after_step (m : Machine) (files : FileSystem) : m.after files .step = m.next files := by
  have hstep : Request.step.perform files m = (step files >>= fun _ => pure ()) m := rfl
  unfold after leftBy next
  rw [hstep]
  cases h : step files m with
  | ok more after =>
    rw [bind_of_ok h]
    rfl
  | error stop after => rw [bind_of_error h]

theorem after_start (m : Machine) (files : FileSystem) (className : String) (limit : Nat) :
    m.after files (.start className limit) =
      match prepare files className m with
      | .ok _ entered => entered.leftBy (run files limit)
      | .error _ entered => entered := by
  have hstart : (Request.start className limit).perform files m =
      (prepare files className >>= fun _ => run files limit) m := rfl
  unfold after leftBy
  rw [hstart]
  cases h : prepare files className m with
  | ok _ entered => rw [bind_of_ok h]
  | error stop entered => rw [bind_of_error h]

end Machine

/-! ## Runs -/

section
variable {m after : Machine} {files : FileSystem} (limit : Nat)

theorem Machine.run_of_more (h : step files m = .ok true after) :
    run files (limit + 1) m = run files limit after := by
  simp only [run, h]

theorem Machine.run_of_error {stop : Stop} (h : step files m = .error stop after) :
    run files (limit + 1) m = .error stop after := by
  simp only [run, h]

/-- A run that has come to its end only logs that. -/
theorem Machine.run_of_end (h : step files m = .ok false after) :
    ∃ log, run files (limit + 1) m = .ok () { after with log } := by
  obtain ⟨log, hlog⟩ := logging_eq after (.finished after.executed)
  refine ⟨log, ?_⟩
  simp only [run, h]
  exact congrArg (EStateM.Result.ok ()) hlog

end

/-- Machines that are in step at each step are so throughout a run, which only adds to their logs. -/
theorem Machine.run_inStep {rel : Machine → Machine → Prop} {files files' : FileSystem}
    (hstep : InStep rel (step files) (step files'))
    (hlog : ∀ m m' log log', rel m m' → rel { m with log } { m' with log := log' }) (limit : Nat) :
    InStep rel (run files limit) (run files' limit) := by
  induction limit with
  | zero => exact inStep_throw _
  | succ limit ih =>
    intro m m' h
    have hfirst := hstep m m' h
    cases hm : step files m with
    | error stop after =>
      obtain ⟨after', hm', hafter⟩ := hfirst.exists_error hm
      rw [run_of_error limit hm, run_of_error limit hm']
      exact .error stop hafter
    | ok more after =>
      obtain ⟨after', hm', hafter⟩ := hfirst.exists_ok hm
      cases more with
      | true =>
        rw [run_of_more limit hm, run_of_more limit hm']
        exact ih after after' hafter
      | false =>
        obtain ⟨log, hend⟩ := run_of_end limit hm
        obtain ⟨log', hend'⟩ := run_of_end limit hm'
        rw [hend, hend']
        exact .ok () (hlog after after' log log' hafter)

/-! ## Entering a program -/

/-- The frame where the program of a class starts. -/
def Class.entry (c : Class) (order : MethodOrder) : Except Error Frame :=
  match c.entryPoint? order with
  | none => .error (.methodNotFound c.name entryName entryDescriptor)
  | some method =>
    if !method.isStatic || method.code.isNone then
      .error (.unsupported (.entryPoint c.name method.name method.descriptor))
    else .ok (.ofCall c method)

/-- A program starts in a static method with code. -/
theorem Class.entry_eq_ok {c : Class} {order : MethodOrder} {f : Frame} (h : c.entry order = .ok f) :
    ∃ method code, c.entryPoint? order = some method ∧ method.isStatic = true ∧ method.code = some code ∧
      f = .ofCall c method := by
  unfold entry at h
  split at h
  · cases h
  · rename_i method hentry
    split at h
    · cases h
    · rename_i hcallable
      cases h
      simp only [Bool.or_eq_true, Bool.not_eq_true', Option.isNone_iff_eq_none, not_or, Bool.not_eq_false,
        ← Option.isSome_iff_ne_none, Option.isSome_iff_exists] at hcallable
      obtain ⟨hstatic, code, hcode⟩ := hcallable
      exact ⟨method, code, hentry, hstatic, hcode, rfl⟩

namespace Machine

/-- The frames once a program is entered. -/
def entered (m : Machine) (files : FileSystem) (className : String) : Except Error (List Frame) := do
  let c ← (m.loader.resolve files className).result
  let frame ← c.entry m.order
  if m.calls.limit ≤ m.calls.depth then throw (.stackOverflow m.calls.limit)
  return frame :: m.calls.frames

section
variable {m : Machine} {files : FileSystem} {className : String}

theorem resolve_eq (files : FileSystem) (className : String) (m : Machine) :
    ∃ log, resolve files className m =
      match (m.loader.resolve files className).result with
      | .ok c => .ok c (m.put (m.loader.resolve files className).loader m.streams m.calls.frames log)
      | .error e =>
        .error (.failed e) (m.put (m.loader.resolve files className).loader m.streams m.calls.frames log) := by
  obtain ⟨log, hlog⟩ := foldl_logging_eq (m.loader.resolve files className).events
    { m with loader := (m.loader.resolve files className).loader }
  refine ⟨log, ?_⟩
  simp only [resolve, onLoader, hlog]
  cases (m.loader.resolve files className).result <;> rfl

theorem pushFrame_eq (frame : Frame) (m : Machine) :
    ∃ log, pushFrame frame m =
      if m.calls.limit ≤ m.calls.depth then
        .error (.failed (.stackOverflow m.calls.limit)) (m.put m.loader m.streams m.calls.frames log)
      else .ok () (m.put m.loader m.streams (frame :: m.calls.frames) log) := by
  have hrun : pushFrame frame m =
      (do
        let calls ← orFail (m.calls.push frame)
        modify fun m => { m with calls }
        note (CallStack.enteredEvent frame calls.depth) : Exec Unit) m := rfl
  have hpush : m.calls.push frame =
      if m.calls.limit ≤ m.calls.depth then .error (.stackOverflow m.calls.limit)
      else .ok { m.calls with frames := frame :: m.calls.frames } := rfl
  by_cases hlimit : m.calls.limit ≤ m.calls.depth
  · rw [if_pos hlimit] at hpush
    refine ⟨m.log, ?_⟩
    rw [if_pos hlimit, hrun, hpush]
    rfl
  · rw [if_neg hlimit] at hpush
    obtain ⟨log, hlog⟩ := logging_eq { m with calls := { m.calls with frames := frame :: m.calls.frames } }
      (CallStack.enteredEvent frame (m.calls.frames.length + 1))
    refine ⟨log, ?_⟩
    rw [if_neg hlimit, hrun, hpush]
    exact congrArg (EStateM.Result.ok ()) hlog

/-- Entering a program, without the monads. -/
theorem enter_eq (files : FileSystem) (className : String) (m : Machine) :
    ∃ log, enter files className m =
      match m.entered files className with
      | .ok frames => .ok () (m.put (m.loader.resolve files className).loader m.streams frames log)
      | .error e =>
        .error (.failed e) (m.put (m.loader.resolve files className).loader m.streams m.calls.frames log) := by
  obtain ⟨log, hresolve⟩ := resolve_eq files className m
  unfold entered
  cases hc : (m.loader.resolve files className).result with
  | error e =>
    rw [hc] at hresolve
    exact ⟨log, bind_of_error hresolve⟩
  | ok c =>
    rw [hc] at hresolve
    rw [enter, bind_of_ok hresolve, get_bind]
    simp only [Class.entry, bind, Except.bind]
    have horder :
        (m.put (m.loader.resolve files className).loader m.streams m.calls.frames log).order = m.order := rfl
    rw [horder]
    cases c.entryPoint? m.order with
    | none => exact ⟨log, rfl⟩
    | some method =>
      simp only
      split
      · exact ⟨log, rfl⟩
      · obtain ⟨log', hpush⟩ := pushFrame_eq (Frame.ofCall c method)
          (m.put (m.loader.resolve files className).loader m.streams m.calls.frames log)
        refine ⟨log', hpush.trans ?_⟩
        have hsame :
            (m.put (m.loader.resolve files className).loader m.streams m.calls.frames log).calls = m.calls := rfl
        by_cases hlimit : m.calls.limit ≤ m.calls.depth
        · simp only [hsame, if_pos hlimit]
          rfl
        · simp only [hsame, if_neg hlimit]
          rfl

theorem clearFrames_eq (m : Machine) :
    ∃ log, clearFrames m = .ok () (m.put m.loader m.streams [] log) := by
  obtain ⟨log, hlog⟩ := logging_eq m (.discarded m.calls.depth)
  unfold clearFrames
  rw [get_bind]
  cases hempty : m.calls.isEmpty with
  | true => exact ⟨m.log, rfl⟩
  | false =>
    have hnote : note (.discarded m.calls.depth) m = .ok () { m with log } := congrArg (EStateM.Result.ok ()) hlog
    exact ⟨log, bind_of_ok hnote⟩

theorem prepare_eq (files : FileSystem) (className : String) (m : Machine) :
    ∃ log, prepare files className m = enter files className (m.put m.loader m.streams [] log) := by
  obtain ⟨log, hclear⟩ := clearFrames_eq m
  exact ⟨log, bind_of_ok hclear⟩

theorem entered_ok {frames : List Frame} (h : m.entered files className = .ok frames) :
    ∃ c f, (m.loader.resolve files className).result = .ok c ∧ c.entry m.order = .ok f ∧
      m.calls.depth < m.calls.limit ∧ frames = f :: m.calls.frames := by
  obtain ⟨c, hc, h⟩ := exists_of_bind_ok h
  obtain ⟨f, hf, h⟩ := exists_of_bind_ok h
  by_cases hlimit : m.calls.limit ≤ m.calls.depth
  · rw [if_pos hlimit] at h
    cases h
  · rw [if_neg hlimit] at h
    cases h
    exact ⟨c, f, hc, hf, Nat.lt_of_not_le hlimit, rfl⟩

end

end Machine

end Jvm
