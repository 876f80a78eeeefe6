import Jvm.Proofs.Machine.Requests

/-!
# Programs from their start

A `begun` machine was told to start a program and has taken any number of steps since, whether or not some
of them failed. What a step does is `Stepped`: nothing, or it carries out what one instruction does, and
then it succeeds just if that settles without an error (`next_stepped`).

`start` leaves a machine that is begun but for its log, after steps all of which succeed up to the last
(`leftBy_start`), and so do further steps and runs (`afterAll_start`).
-/

namespace Jvm

/-- The request makes the program go on that is there. -/
def Request.GoesOn : Request → Prop
  | .step | .run _ => True
  | .start _ _ | .enter _ => False

namespace Machine

/-- The next step executes an instruction, without an error. -/
def Succeeds (m : Machine) (files : FileSystem) : Prop := ∃ after, step files m = .ok true after

/-- The machine is told to start a program, and takes the steps of a run. -/
def begun (files : FileSystem) (className : String) (run : List FileSystem) (m : Machine) : Machine :=
  (m.leftBy (prepare files className)).nexts run

/-- What a step makes of a machine. -/
inductive Stepped (files : FileSystem) (m : Machine) : Machine → Prop
  /-- There is no instruction, or executing it would never end. -/
  | nothing : ¬m.Succeeds files → Stepped files m m
  | carried {f : Frame} {below : List Frame} {inst : Instruction Nat} {o : Outcome} {fault : Option Error}
      {frames : List Frame} {executed : Nat} {log : List Event} :
      m.calls.frames = f :: below → f.fetch? = .ok inst →
      outcome files m.natives inst f.pc { f with pc := f.pc + 1 } m.loader m.streams = o →
      o.effect.settle m.calls.limit below = some (fault, frames) → (m.Succeeds files ↔ fault = none) →
      Stepped files m { m.put o.loader o.streams frames log with executed }

/-! ## Steps -/

section
variable {m : Machine} {files : FileSystem}

theorem not_succeeds_of_error {stop : Stop} {after : Machine} (h : step files m = .error stop after) :
    ¬m.Succeeds files := by
  rintro ⟨after', h'⟩
  cases h.symm.trans h'

theorem next_of_empty (hm : m.calls.frames = []) (files : FileSystem) : m.next files = m := by
  rw [Machine.next, step_eq_stepWith, stepWith_of_empty fetch files hm]

/-- **One step.** -/
theorem next_stepped (m : Machine) (files : FileSystem) : Stepped files m (m.next files) := by
  cases hm : m.calls.frames with
  | nil =>
    have hend : step files m = .ok false m := stepWith_of_empty fetch files hm
    rw [next_of_empty hm]
    refine .nothing ?_
    rintro ⟨after, h⟩
    cases hend.symm.trans h
  | cons f below =>
    unfold Machine.next
    cases hfetch : f.fetch? with
    | error e =>
      have hstep := step_of_fetch_error hm hfetch files
      rw [hstep]
      exact .nothing (not_succeeds_of_error hstep)
    | ok inst =>
      obtain ⟨log, hstep⟩ := step_eq hm hfetch files
      rw [conclude] at hstep
      split at hstep
      · rw [hstep]
        exact .nothing (not_succeeds_of_error hstep)
      · rename_i e frames hsettle
        rw [hstep]
        exact .carried hm hfetch rfl hsettle (iff_of_false (not_succeeds_of_error hstep) (Option.some_ne_none e))
      · rename_i frames hsettle
        rw [hstep]
        exact .carried hm hfetch rfl hsettle (iff_of_true ⟨_, hstep⟩ rfl)

theorem natives_next (m : Machine) (files : FileSystem) : (m.next files).natives = m.natives := by
  have hstepped := next_stepped m files
  generalize m.next files = after at hstepped
  cases hstepped <;> rfl

/-- An instruction that only works on the stack, as those that print do, succeeds. -/
theorem succeeds_of_stay {f g : Frame} {below : List Frame} {inst : Instruction Nat} {loader : Loader}
    {streams : Streams} (hm : m.calls.frames = f :: below) (hfetch : f.fetch? = .ok inst)
    (h : outcome files m.natives inst f.pc { f with pc := f.pc + 1 } m.loader m.streams = ⟨.stay g, loader, streams⟩) :
    m.Succeeds files := by
  obtain ⟨log, hstep⟩ := step_eq hm hfetch files
  rw [h, conclude_of_settle rfl] at hstep
  exact ⟨_, hstep⟩

/-- The log makes no difference to a step. -/
theorem next_logged (m : Machine) (files : FileSystem) (log : List Event) :
    ∃ log', Machine.next { m with log } files = { m.next files with log := log' } := by
  cases hm : m.calls.frames with
  | nil =>
    rw [next_of_empty hm, next_of_empty (m := { m with log }) hm]
    exact ⟨log, rfl⟩
  | cons f below =>
    unfold Machine.next
    cases hfetch : f.fetch? with
    | error e =>
      rw [step_of_fetch_error hm hfetch, step_of_fetch_error (m := { m with log }) hm hfetch]
      exact ⟨log, rfl⟩
    | ok inst =>
      obtain ⟨log₁, hstep⟩ := step_eq hm hfetch files
      obtain ⟨log₂, hstep'⟩ : ∃ log₂, step files { m with log } = conclude { m with log } below
          (outcome files m.natives inst f.pc { f with pc := f.pc + 1 } m.loader m.streams) log₂ :=
        step_eq (m := { m with log }) hm hfetch files
      generalize outcome files m.natives inst f.pc { f with pc := f.pc + 1 } m.loader m.streams = o at hstep hstep'
      rw [hstep, hstep']
      unfold conclude
      cases hsettle : o.effect.settle m.calls.limit below with
      | none => exact ⟨log, rfl⟩
      | some ended =>
        obtain ⟨fault, frames⟩ := ended
        cases fault <;> exact ⟨log₂, rfl⟩

end

/-! ## Runs of steps -/

section
variable {m : Machine} {files : FileSystem}

theorem nexts_append (m : Machine) (run later : List FileSystem) :
    m.nexts (run ++ later) = (m.nexts run).nexts later := List.foldl_append

theorem nexts_logged (m : Machine) (run : List FileSystem) (log : List Event) :
    ∃ log', Machine.nexts { m with log } run = { m.nexts run with log := log' } := by
  induction run generalizing m log with
  | nil => exact ⟨log, rfl⟩
  | cons now later ih =>
    obtain ⟨log₁, hnext⟩ := next_logged m now log
    obtain ⟨log', hlater⟩ := ih (m.next now) log₁
    exact ⟨log', (congrArg (nexts · later) hnext).trans hlater⟩

/-- A run takes steps that succeed, and one more. -/
theorem leftBy_run (files : FileSystem) (limit : Nat) (m : Machine) :
    ∃ k log, m.leftBy (run files limit) = { m.nexts (List.replicate k files) with log } ∧
      ∀ i, i + 1 < k → (m.nexts (List.replicate i files)).Succeeds files := by
  induction limit generalizing m with
  | zero => exact ⟨0, m.log, rfl, fun i hi => absurd hi (Nat.not_lt_zero (i + 1))⟩
  | succ limit ih =>
    have hone : ∀ i, i + 1 < 1 → (m.nexts (List.replicate i files)).Succeeds files := fun i hi => by omega
    unfold leftBy
    cases hstep : step files m with
    | error stop after =>
      have hnext : m.next files = after := by rw [Machine.next, hstep]
      rw [run_of_error limit hstep]
      exact ⟨1, after.log, by rw [← hnext]; rfl, hone⟩
    | ok more after =>
      have hnext : m.next files = after := by rw [Machine.next, hstep]
      cases more with
      | false =>
        obtain ⟨log, hend⟩ := run_of_end limit hstep
        rw [hend]
        exact ⟨1, log, by rw [← hnext]; rfl, hone⟩
      | true =>
        obtain ⟨k, log, hleft, hsucceeds⟩ := ih after
        have hnexts : ∀ n, m.nexts (List.replicate (n + 1) files) = after.nexts (List.replicate n files) := by
          intro n
          rw [← hnext]
          rfl
        rw [run_of_more limit hstep]
        refine ⟨k + 1, log, by rw [hnexts]; exact hleft, fun i hi => ?_⟩
        cases i with
        | zero => exact ⟨after, hstep⟩
        | succ i =>
          rw [hnexts]
          exact hsucceeds i (Nat.lt_of_succ_lt_succ hi)

end

/-! ## Programs -/

section
variable (files : FileSystem) (className : String) (m : Machine)

/-- A program is entered, or it is not, in which case there are no frames. -/
theorem leftBy_prepare :
    (m.leftBy (prepare files className)).natives = m.natives ∧
      (m.leftBy (prepare files className)).streams = m.streams ∧
      ∀ f ∈ (m.leftBy (prepare files className)).calls.frames, ∃ owner method, f = .ofCall owner method := by
  obtain ⟨log, hprepare⟩ := prepare_eq files className m
  obtain ⟨log', henter⟩ := enter_eq files className (m.put m.loader m.streams [] log)
  unfold leftBy
  rw [hprepare, henter]
  cases hentered : (m.put m.loader m.streams [] log).entered files className with
  | error e => exact ⟨rfl, rfl, nofun⟩
  | ok frames =>
    obtain ⟨c, f, -, hentry, -, rfl⟩ := entered_ok hentered
    refine ⟨rfl, rfl, fun g hg => ?_⟩
    obtain ⟨method, -, -, -, -, rfl⟩ := Class.entry_eq_ok hentry
    exact ⟨c, method, List.mem_singleton.1 hg⟩

/-- **What `start` leaves.** -/
theorem leftBy_start (limit : Nat) :
    ∃ k log, m.leftBy (start files className limit) =
        { m.begun files className (List.replicate k files) with log } ∧
      ∀ i, i + 1 < k → (m.begun files className (List.replicate i files)).Succeeds files := by
  have hstart : m.leftBy (start files className limit) = m.after files (.start className limit) := rfl
  rw [hstart, after_start]
  cases hprepare : prepare files className m with
  | error stop entered =>
    have hleft : m.leftBy (prepare files className) = entered := by rw [leftBy, hprepare]
    refine ⟨0, entered.log, ?_, fun i hi => absurd hi (Nat.not_lt_zero (i + 1))⟩
    rw [begun, hleft]
    rfl
  | ok _ entered =>
    have hleft : m.leftBy (prepare files className) = entered := by rw [leftBy, hprepare]
    simp only [begun, hleft]
    exact leftBy_run files limit entered

/-- **What further steps and runs leave.** -/
theorem afterAll_start (limit : Nat) {history : History} (h : ∀ asked ∈ history, asked.2.GoesOn) :
    ∃ run log, m.afterAll ((files, .start className limit) :: history) = { m.begun files className run with log } := by
  -- a request leaves a machine that is begun up to its log, which the induction carries along
  have hgoesOn : ∀ (run : List FileSystem) (log : List Event), ∃ run' log',
      Machine.afterAll { m.begun files className run with log } history =
        { m.begun files className run' with log := log' } := by
    induction history with
    | nil => exact fun run log => ⟨run, log, rfl⟩
    | cons asked rest ih =>
      intro run log
      obtain ⟨now, request⟩ := asked
      have hrest := ih fun asked hasked => h asked (List.mem_cons_of_mem _ hasked)
      have hrequest : request.GoesOn := h (now, request) List.mem_cons_self
      have hone : ∃ more log', Machine.after { m.begun files className run with log } now request =
          { m.begun files className (run ++ more) with log := log' } := by
        simp only [begun, nexts_append]
        cases request with
        | start | enter => exact hrequest.elim
        | step =>
          obtain ⟨log', hnext⟩ := next_logged ((m.leftBy (prepare files className)).nexts run) now log
          exact ⟨[now], log', (after_step _ now).trans hnext⟩
        | run limit =>
          obtain ⟨k, log₁, hleft, -⟩ :=
            leftBy_run now limit { (m.leftBy (prepare files className)).nexts run with log }
          obtain ⟨log₂, hnexts⟩ := nexts_logged ((m.leftBy (prepare files className)).nexts run)
            (List.replicate k now) log
          rw [hnexts] at hleft
          exact ⟨List.replicate k now, log₁, hleft⟩
      obtain ⟨more, log', hone⟩ := hone
      obtain ⟨run', log'', hend⟩ := hrest (run ++ more) log'
      exact ⟨run', log'', (congrArg (afterAll · rest) hone).trans hend⟩
  obtain ⟨k, log, hstart, -⟩ := leftBy_start files className m limit
  obtain ⟨run, log', hend⟩ := hgoesOn (List.replicate k files) log
  exact ⟨run, log', (congrArg (afterAll · history) hstart).trans hend⟩

end

end Machine

end Jvm
