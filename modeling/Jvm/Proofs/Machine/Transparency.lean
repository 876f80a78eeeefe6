import Jvm.Proofs.Loader.Faithful
import Jvm.Proofs.Machine.MoreRoots
import Jvm.Proofs.Machine.Surroundings
import Jvm.Proofs.Streams

/-!
# A machine that has been used is as good as new

While files and native methods stay the same, nothing that a machine has done shows in what it does later:
not the classes that it has loaded, not the frames that a failed run has left, not what it has printed. A
program that it is asked to start goes step by step as on a machine that has just been made. That machine
loads classes of its own, whose tables may give their methods in another order (`reordered`), so the program
has to start in the same place.

`Descends` says how a machine may have been used. It keeps the loader faithful to the files and the
streams as they were (`Descends.kept`). Two machines of which this is true are side by side once they have
entered a program (`prepare_beside`), and stay so from step to step (`step_matched`). Main theorem
`start_transparent`.
-/

namespace Jvm

/-- The loader has only what the roots of `m₀` have, and the streams behave like those of `m₀`. -/
structure Steady (files : FileSystem) (m₀ : Machine) (loader : Loader) (streams : Streams) : Prop where
  roots : loader.roots = m₀.loader.roots
  faithful : Loader.Faithful files loader
  behaviour : streams.behaviour = m₀.streams.behaviour

/-- The loaders find the same, and the same was printed to the streams since they were `base` and `base'`. -/
structure Matched (files : FileSystem) (base base' : Streams) (around around' : Loader × Streams) : Prop where
  loaders : Loader.Agree files around.1 around'.1
  printed : ∃ text, around.2 = base.plus text ∧ around'.2 = base'.plus text

namespace Machine

/-- A machine that was `m₀` once: requests were made of it, and a new machine may have taken over its
loader, with streams like those of `m₀`. -/
inductive Descends (files : FileSystem) (m₀ : Machine) : Machine → Prop
  | refl : Descends files m₀ m₀
  | after {m : Machine} (request : Request) : Descends files m₀ m → Descends files m₀ (m.after files request)
  | renew {m : Machine} (streams : Streams) : streams.behaviour = m₀.streams.behaviour → Descends files m₀ m →
      Descends files m₀ { m.renew with streams }

/-- The machine, but the tables of methods have another order. -/
def reordered (m : Machine) (order : MethodOrder) : Machine := { m with order }

/-- The machine `k` steps after it was told to start a program. -/
def atStep (files : FileSystem) (className : String) (k : Nat) (m : Machine) : Machine :=
  (m.leftBy (prepare files className)).nexts (List.replicate k files)

/-- Since they were `base` and `base'`, the machines have printed the same and executed as many
instructions, and they have the same frames. -/
structure SameProgress (base base' m m' : Machine) : Prop where
  calls : m'.calls = m.calls
  printed : ∃ text, m.streams = base.streams.plus text ∧ m'.streams = base'.streams.plus text
  executed : ∃ count, m.executed = base.executed + count ∧ m'.executed = base'.executed + count

end Machine

/-! ## How a machine is used -/

section
variable {files : FileSystem} {m₀ m : Machine}

theorem upkeep_steady {natives : NativeTable} (h : natives.OnlyPrints) (files : FileSystem) (m₀ : Machine) :
    Upkeep files natives (Steady files m₀) where
  resolve := fun loader _ name hp =>
    ⟨(Loader.extends_search files loader _).roots.trans hp.roots, hp.faithful.search _, hp.behaviour⟩
  findMethod := fun loader _ target hp =>
    ⟨(Loader.extends_findMethod files loader target).roots.trans hp.roots, hp.faithful.findMethod target, hp.behaviour⟩
  native := by
    intro loader streams call method hmem hp
    obtain ⟨result, text, hact⟩ := h method hmem call streams.behaviour
    rw [hact streams rfl]
    cases result <;> exact ⟨hp.roots, hp.faithful, hp.behaviour⟩

/-- A history of requests, all with the same files. -/
theorem Machine.Descends.afterAll (h : m₀.Descends files m) (requests : List Request) :
    m₀.Descends files (m.afterAll (requests.map (files, ·))) := by
  induction requests generalizing m with
  | nil => exact h
  | cons request rest ih => exact ih (h.after request)

theorem Machine.Descends.kept (h : m₀.Descends files m) (hcache : m₀.loader.cache = [])
    (hprint : m₀.natives.OnlyPrints) : Kept m₀ (Steady files m₀) m := by
  induction h with
  | refl => exact ⟨rfl, rfl, rfl, rfl, Loader.faithful_of_empty hcache, rfl⟩
  | after request _ ih => exact ih.after (upkeep_steady hprint files m₀) request
  | renew streams hstreams _ ih => exact ⟨ih.natives, ih.limit, ih.order, ih.around.roots, ih.around.faithful, hstreams⟩

end

/-! ## Side by side -/

section
variable {files : FileSystem} {natives : NativeTable} {base base' : Streams} {loader loader' : Loader}
  {streams streams' : Streams}

theorem Outcome.native_matched {action : NativeAction} {call : NativeCall} (h : Output.OnlyPrints (action call))
    (hbase : base'.behaviour = base.behaviour)
    (hmatched : Matched files base base' (loader, streams) (loader', streams')) (rest : Frame) :
    (native action call rest loader streams).Beside (Matched files base base')
      (native action call rest loader' streams') := by
  obtain ⟨hloaders, text, hstreams, hstreams'⟩ := hmatched
  obtain rfl : streams = base.plus text := hstreams
  obtain rfl : streams' = base'.plus text := hstreams'
  obtain ⟨result, more, hact⟩ := h base.behaviour
  have hmore : Matched files base base' (loader, (base.plus text).plus more) (loader', (base'.plus text).plus more) :=
    ⟨hloaders, text ++ more, Streams.plus_plus base text more, Streams.plus_plus base' text more⟩
  unfold native
  rw [hact _ (Streams.behaviour_plus base text), hact _ ((Streams.behaviour_plus base' text).trans hbase)]
  cases result with
  | error e => exact ⟨rfl, hmore⟩
  | ok value => cases value <;> exact ⟨rfl, hmore⟩

theorem Outcome.bytecode_matched (h : Matched files base base' (loader, streams) (loader', streams'))
    (target : MemberRef) (f : Frame) :
    (bytecode files target f loader streams).Beside (Matched files base base')
      (bytecode files target f loader' streams') :=
  bytecode_beside (h.loaders.findMethod_congr target) ⟨h.loaders.findMethod target, h.printed⟩ f

theorem outcome_matched (hprint : natives.OnlyPrints) (hbase : base'.behaviour = base.behaviour)
    (h : Matched files base base' (loader, streams) (loader', streams')) (inst : Instruction Nat) (pc : Nat)
    (f : Frame) :
    (outcome files natives inst pc f loader streams).Beside (Matched files base base')
      (outcome files natives inst pc f loader' streams') :=
  outcome_beside h (fun method hmem call rest => Outcome.native_matched (hprint method hmem call) hbase h rest)
    fun target _ => Outcome.bytecode_matched h target f

end

namespace Machine

section
variable {files : FileSystem} {natives : NativeTable} {base base' : Streams} {n n' : Nat} {m m' : Machine}

/-- **One step.** -/
theorem step_matched (hprint : natives.OnlyPrints) (hbase : base'.behaviour = base.behaviour)
    (h : m.Beside natives (Matched files base base') n n' m') :
    EndBeside natives (Matched files base base') n n' (step files m) (step files m') :=
  step_beside h fun f _ inst _ _ => outcome_matched hprint hbase h.around inst f.pc { f with pc := f.pc + 1 }

theorem nexts_matched (hprint : natives.OnlyPrints) (hbase : base'.behaviour = base.behaviour)
    (h : m.Beside natives (Matched files base base') n n' m') (k : Nat) :
    (m.nexts (List.replicate k files)).Beside natives (Matched files base base') n n'
      (m'.nexts (List.replicate k files)) := by
  induction k generalizing m m' with
  | zero => exact h
  | succ k ih =>
    have hnext := (step_matched hprint hbase h).leftBy
    rw [leftBy_step, leftBy_step] at hnext
    exact ih hnext

/-- A program that is entered leaves nothing of the frames that there were. -/
theorem prepare_beside (h : Matched files base base' (m.loader, m.streams) (m'.loader, m'.streams))
    (hnatives : m'.natives = m.natives) (hlimit : m'.calls.limit = m.calls.limit) {className : String}
    (hentry : ∀ c, (m.loader.resolve files className).result = .ok c →
      c.entryPoint? m'.order = c.entryPoint? m.order) :
    EndBeside m.natives (Matched files base base') m.executed m'.executed (prepare files className m)
      (prepare files className m') := by
  obtain ⟨log, hprepare⟩ := prepare_eq files className m
  obtain ⟨log', hprepare'⟩ := prepare_eq files className m'
  have hclear : (m.put m.loader m.streams [] log).Beside m.natives (Matched files base base') m.executed m'.executed
      (m'.put m'.loader m'.streams [] log') :=
    ⟨rfl, hnatives, congrArg (CallStack.mk []) hlimit, h, 0, rfl, rfl⟩
  rw [hprepare, hprepare']
  exact enter_beside hclear (h.loaders.resolve_congr className) hentry ⟨h.loaders.resolve className, h.printed⟩

theorem Beside.sameProgress {m₁ m₁' : Machine}
    (h : m₁.Beside natives (Matched files m.streams m'.streams) m.executed m'.executed m₁') :
    SameProgress m m' m₁ m₁' :=
  ⟨h.calls, h.around.printed, h.executed⟩

/-- **A machine that has been used is as good as new.** Take a machine that is made like the one that it was
at first. A program goes alike on both: entering it gives the same answer, so does each step and the whole run,
and at any time the machines have the same frames, have printed the same and have executed as many
instructions. Its class leaves no choice where it starts, or else the tables of both machines give the same
method first. -/
theorem start_transparent {m₀ : Machine} (hcache : m₀.loader.cache = []) (hprint : m₀.natives.OnlyPrints)
    (h : m₀.Descends files m) (order : MethodOrder) (className : String)
    (hentry : ∀ c, (m₀.loader.resolve files className).result = .ok c →
      c.OneEntry ∨ c.entryPoint? order = c.entryPoint? m₀.order) :
    m.answer (prepare files className) = (m₀.reordered order).answer (prepare files className) ∧
      (∀ k, SameProgress m₀ m ((m₀.reordered order).atStep files className k) (m.atStep files className k) ∧
        (m.atStep files className k).answer (step files) =
          ((m₀.reordered order).atStep files className k).answer (step files)) ∧
      ∀ limit, m.answer (start files className limit) = (m₀.reordered order).answer (start files className limit) ∧
        SameProgress m₀ m ((m₀.reordered order).leftBy (start files className limit))
          (m.leftBy (start files className limit)) := by
  have hkept := h.kept hcache hprint
  have hbase : m.streams.behaviour = m₀.streams.behaviour := hkept.around.behaviour
  have hmatched : Matched files m₀.streams m.streams ((m₀.reordered order).loader, (m₀.reordered order).streams)
      (m.loader, m.streams) :=
    ⟨⟨hkept.around.roots, Loader.faithful_of_empty hcache, hkept.around.faithful⟩, {}, (Streams.plus_empty _).symm,
      (Streams.plus_empty _).symm⟩
  have hsame (c : Class) (hc : (m₀.loader.resolve files className).result = .ok c) :
      c.entryPoint? m.order = c.entryPoint? order := by
    rw [hkept.order]
    exact (hentry c hc).elim (·.entryPoint?_eq m₀.order order) Eq.symm
  have hentered := prepare_beside hmatched hkept.natives hkept.limit hsame
  refine ⟨hentered.answer_eq, fun k => ?_, fun limit => ?_⟩
  · have hstep := nexts_matched hprint hbase hentered.leftBy k
    exact ⟨hstep.sameProgress, (step_matched hprint hbase hstep).answer_eq⟩
  · have hrun : EndBeside m₀.natives (Matched files m₀.streams m.streams) m₀.executed m.executed
        (start files className limit (m₀.reordered order)) (start files className limit m) :=
      hentered.bind fun _ _ _ hbeside => run_beside (fun _ _ => step_matched hprint hbase) hbeside limit
    exact ⟨hrun.answer_eq, hrun.leftBy.sameProgress⟩

end

end Machine

/-! ### A program that was given up, and one that does not exist -/

namespace Sample

/-- A program is started and given up in its midst, one that is not there is started, and the first one is
entered and takes two steps. -/
def mishaps : List Request := [.start "B" 3, .start "Z" 3, .enter "B", .step, .step]

/-- A machine after these requests. -/
def veteran : Machine := idle.afterAll (mishaps.map (heirFiles, ·))

end Sample

/-- Two frames are left and two classes are loaded. The program runs as on a new machine, and so it does on
one that has taken over the loader. -/
theorem start_transparent_veteran :
    Sample.veteran.calls.depth = 2 ∧ Sample.veteran.loader.loadedCount = 2 ∧
      (∀ k, Machine.SameProgress Sample.idle Sample.veteran (Sample.idle.atStep Sample.heirFiles "B" k)
        (Sample.veteran.atStep Sample.heirFiles "B" k)) ∧
      Sample.veteran.answer (Machine.start Sample.heirFiles "B" 10) = .ok () ∧
      ({ Sample.veteran.renew with streams := {} } : Machine).answer (Machine.start Sample.heirFiles "B" 10) =
        .ok () := by
  have hdescends : Sample.idle.Descends Sample.heirFiles Sample.veteran :=
    Machine.Descends.refl.afterAll Sample.mishaps
  have hok : Sample.idle.answer (Machine.start Sample.heirFiles "B" 10) = .ok () := by decide +kernel
  obtain ⟨-, hsteps, hruns⟩ := Machine.start_transparent rfl NativeTable.onlyPrints_standard hdescends .ofFile "B"
    fun _ hc => .inl (Sample.oneEntry_heir hc)
  obtain ⟨-, -, hruns'⟩ := Machine.start_transparent rfl NativeTable.onlyPrints_standard
    (hdescends.renew {} rfl) .ofFile "B" fun _ hc => .inl (Sample.oneEntry_heir hc)
  exact ⟨by decide +kernel, by decide +kernel, fun k => (hsteps k).1, (hruns 10).1.trans hok,
    (hruns' 10).1.trans hok⟩

/-! ### A program that may start in two places -/

/-- A machine that has run the program of `A` once. -/
def Sample.rerun : Machine := idle.after twinsFiles (.start "A" 10)

/-- On a machine that has run the program once, it ends with its first step. On a new one whose table gives
the other method first, it does not. -/
theorem start_transparent_fails_twins :
    Sample.idle.Descends Sample.twinsFiles Sample.rerun ∧
      ¬Machine.SameProgress Sample.idle Sample.rerun
        ((Sample.idle.reordered (.first Sample.secondTwin)).atStep Sample.twinsFiles "A" 1)
        (Sample.rerun.atStep Sample.twinsFiles "A" 1) := by
  refine ⟨.after (.start "A" 10) .refl, fun h => ?_⟩
  have hended : (Sample.rerun.atStep Sample.twinsFiles "A" 1).calls.depth = 0 := by decide +kernel
  have hrunning :
      ((Sample.idle.reordered (.first Sample.secondTwin)).atStep Sample.twinsFiles "A" 1).calls.depth = 1 := by
    decide +kernel
  rw [h.calls, hrunning] at hended
  cases hended

end Jvm
