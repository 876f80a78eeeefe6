import Jvm.Proofs.Loader.LookUps
import Jvm.Proofs.Machine.Reachable
import Jvm.Proofs.Machine.SideBySide

/-!
# More roots

Roots that are appended to those of a loader come last, so they are reached only by a search that has
found nothing so far. Such a search makes a step fail, be it for the class that a call names or for one
of its superclasses. Hence a run that ends well never reaches the new roots, and goes the same way with
them as without, if it starts in the same place.

One search is `search_widened`, the search for a method `findMethod_widened`, a step `step_widened`, a
run `run_widened`. Main theorem `start_widened`.
-/

namespace Jvm

/-! ## What a loader finds -/

namespace Loader

/-- The loader with roots to look under after its own. -/
def widened (loader : Loader) (more : List String) : Loader := { loader with roots := loader.roots ++ more }

section
variable {loader : Loader} {files : FileSystem} {target : MemberRef} {name : String} {c : Class}

theorem fromRoots_append {roots : List String} (h : fromRoots files roots name = some c) (more : List String) :
    fromRoots files (roots ++ more) name = some c := by
  unfold fromRoots at h ⊢
  rw [List.findSome?_append, h]
  rfl

/-- A class that is found is found under more roots, and the loaders go on with the same classes. -/
theorem search_widened (h : (loader.search files name).result = .ok c) (more : List String) :
    ((loader.widened more).search files name).result = .ok c ∧
      ((loader.widened more).search files name).loader = (loader.search files name).loader.widened more := by
  cases hcached : loader.cached? name with
  | some d =>
    have hcached' : (loader.widened more).cached? name = some d := hcached
    rw [search_of_cached hcached] at h ⊢
    rw [search_of_cached hcached']
    exact ⟨h, rfl⟩
  | none =>
    have hcached' : (loader.widened more).cached? name = none := hcached
    rcases search_of_uncached files hcached with ⟨d, hroots, hresult, hl⟩ | ⟨-, hresult, -⟩
    · cases hresult.symm.trans h
      have hmore : fromRoots files (loader.widened more).roots name = some c := fromRoots_append hroots more
      rcases search_of_uncached files hcached' with ⟨e, he, hresult', hl'⟩ | ⟨hnone, -, -⟩
      · cases hmore.symm.trans he
        rw [hresult', hl', hl]
        exact ⟨rfl, rfl⟩
      · cases hmore.symm.trans hnone
    · cases hresult.symm.trans h

theorem resolve_widened (h : (loader.resolve files name).result = .ok c) (more : List String) :
    ((loader.widened more).resolve files name).result = .ok c ∧
      ((loader.widened more).resolve files name).loader = (loader.resolve files name).loader.widened more := by
  obtain ⟨hresult, hl⟩ := search_widened (ok_of_mapError_ok h) more
  refine ⟨?_, hl⟩
  simp only [resolve, hresult]
  rfl

theorem tryResolve_widened (h : (loader.tryResolve files name).result = .ok (some c)) (more : List String) :
    ((loader.widened more).tryResolve files name).result = .ok (some c) ∧
      ((loader.widened more).tryResolve files name).loader = (loader.tryResolve files name).loader.widened more := by
  have hsearch : (loader.search files (internalName name)).result = .ok c :=
    (LookUp.ask_eq_some_iff (.tryResolve name)).1 h
  obtain ⟨hresult, hl⟩ := search_widened hsearch more
  exact ⟨(LookUp.ask_eq_some_iff (.tryResolve name)).2 hresult, hl⟩

/-- On the way to a method that is found, each superclass is found. -/
theorem climb_widened {found : Class × Method} {limit : Nat}
    (h : (climb files target limit c loader).result = .ok found) (more : List String) :
    (climb files target limit c (loader.widened more)).result = .ok found ∧
      (climb files target limit c (loader.widened more)).loader =
        (climb files target limit c loader).loader.widened more := by
  obtain ⟨owner, method⟩ := found
  induction limit generalizing c loader with
  | zero => cases h
  | succ limit ih =>
    rcases exists_of_climb h with ⟨hmethod, rfl⟩ | ⟨name, parent, hlacks, hsuper, htry, hrest⟩
    · rw [climb_of_declares hmethod, climb_of_declares hmethod]
      exact ⟨rfl, rfl⟩
    · obtain ⟨htry', hl⟩ := tryResolve_widened htry more
      obtain ⟨-, hloader⟩ := climb_of_parent hlacks hsuper htry limit
      obtain ⟨hresult', hloader'⟩ := climb_of_parent hlacks hsuper htry' limit
      rw [hresult', hloader', hloader, hl]
      exact ih hrest

/-- A method that is found is found under more roots. -/
theorem findMethod_widened {found : Class × Method} (h : (loader.findMethod files target).result = .ok found)
    (more : List String) :
    ((loader.widened more).findMethod files target).result = .ok found ∧
      ((loader.widened more).findMethod files target).loader =
        (loader.findMethod files target).loader.widened more := by
  cases hc : (loader.resolve files target.owner).result with
  | error e =>
    simp only [findMethod, hc] at h
    cases h
  | ok c =>
    obtain ⟨hc', hl⟩ := resolve_widened hc more
    have hlimit : climbLimit files (loader.widened more) = climbLimit files loader := rfl
    simp only [findMethod, hc] at h
    simp only [findMethod, hc, hc', hl, hlimit]
    exact climb_widened h more

end

end Loader

/-! ## Steps -/

/-- The second machine has more roots, and all else is the same. -/
def Widened (more : List String) (around around' : Loader × Streams) : Prop :=
  around' = (around.1.widened more, around.2)

theorem Outcome.bytecode_widened {files : FileSystem} {target : MemberRef} {f : Frame} {loader : Loader}
    {streams : Streams} (h : (bytecode files target f loader streams).effect.Succeeds) (more : List String) :
    (bytecode files target f loader streams).Beside (Widened more)
      (bytecode files target f (loader.widened more) streams) := by
  cases hfound : (loader.findMethod files target).result with
  | error stop =>
    unfold bytecode at h
    simp only [hfound] at h
    cases stop <;> cases h
  | ok found =>
    obtain ⟨hfound', hl⟩ := Loader.findMethod_widened hfound more
    refine bytecode_beside (hfound'.trans hfound.symm) ?_ f
    rw [hl]
    rfl

/-- An instruction that succeeds does the same with more roots. -/
theorem outcome_widened {files : FileSystem} {natives : NativeTable} {inst : Instruction Nat} {pc : Nat} {f : Frame}
    {loader : Loader} {streams : Streams} (h : (outcome files natives inst pc f loader streams).effect.Succeeds)
    (more : List String) :
    (outcome files natives inst pc f loader streams).Beside (Widened more)
      (outcome files natives inst pc f (loader.widened more) streams) := by
  refine outcome_beside rfl (fun method _ call rest => ?_) fun target hcall => ?_
  · unfold Outcome.native
    cases method.action call streams with
    | error e streams => exact ⟨rfl, rfl⟩
    | ok result streams => cases result <;> exact ⟨rfl, rfl⟩
  · rw [hcall] at h
    exact Outcome.bytecode_widened h more

namespace Machine

/-- The machine with more roots, where the tables of methods have an order of their own. -/
def widened (m : Machine) (more : List String) (order : MethodOrder) : Machine :=
  { m with loader := m.loader.widened more, order }

section
variable {natives : NativeTable} {m m' m₁ : Machine} {files : FileSystem} {more : List String} {base base' : Nat}

theorem beside_widened (m : Machine) (more : List String) (order : MethodOrder) :
    m.Beside m.natives (Widened more) 0 0 (m.widened more order) where
  same := rfl
  same' := rfl
  calls := rfl
  around := rfl
  executed := ⟨m.executed, (Nat.zero_add _).symm, (Nat.zero_add _).symm⟩

/-- **One step** that succeeds. -/
theorem step_widened {again : Bool} (h : m.Beside natives (Widened more) base base' m')
    (hstep : step files m = .ok again m₁) :
    ∃ m₁', step files m' = .ok again m₁' ∧ m₁.Beside natives (Widened more) base base' m₁' := by
  refine EndBeside.exists_ok (step_beside h fun f below inst hm hfetch => ?_) hstep
  obtain ⟨log, hconclude⟩ := step_eq hm hfetch files
  obtain ⟨frames, hsettle, -⟩ := conclude_eq_ok (hconclude.symm.trans hstep)
  obtain ⟨hloader, hstreams⟩ := Prod.mk.inj h.around
  rw [h.same] at hsettle
  rw [hloader, hstreams]
  exact outcome_widened (Effect.succeeds_of_settle hsettle) more

theorem run_widened {limit : Nat} (h : m.Beside natives (Widened more) base base' m')
    (hrun : run files limit m = .ok () m₁) :
    ∃ m₁', run files limit m' = .ok () m₁' ∧ m₁.Beside natives (Widened more) base base' m₁' := by
  induction limit generalizing m m' with
  | zero => cases hrun
  | succ limit ih =>
    cases hstep : step files m with
    | error stop after =>
      rw [run_of_error limit hstep] at hrun
      cases hrun
    | ok again after =>
      obtain ⟨after', hstep', hafter⟩ := step_widened h hstep
      cases again with
      | true =>
        rw [run_of_more limit hstep] at hrun
        rw [run_of_more limit hstep']
        exact ih hafter hrun
      | false =>
        obtain ⟨log, hend⟩ := run_of_end limit hstep
        obtain ⟨log', hend'⟩ := run_of_end limit hstep'
        cases hend.symm.trans hrun
        exact ⟨_, hend', hafter.logged log log'⟩

theorem enter_widened {className : String} (h : m.Beside natives (Widened more) base base' m')
    (hentry : ∀ c, (m.loader.resolve files className).result = .ok c →
      c.entryPoint? m'.order = c.entryPoint? m.order)
    (henter : enter files className m = .ok () m₁) :
    ∃ m₁', enter files className m' = .ok () m₁' ∧ m₁.Beside natives (Widened more) base base' m₁' := by
  obtain ⟨c, hc⟩ : ∃ c, (m.loader.resolve files className).result = .ok c := by
    obtain ⟨log, heq⟩ := enter_eq files className m
    cases hentered : m.entered files className with
    | error e =>
      rw [hentered] at heq
      cases heq.symm.trans henter
    | ok frames =>
      obtain ⟨c, -, hc, -⟩ := entered_ok hentered
      exact ⟨c, hc⟩
  obtain ⟨hloader, hstreams⟩ := Prod.mk.inj h.around
  obtain ⟨hc', hl⟩ := Loader.resolve_widened hc more
  refine EndBeside.exists_ok (enter_beside h ?_ hentry ?_) henter
  · rw [hloader, hc, hc']
  · rw [hloader, hl, hstreams]
    rfl

/-- **More roots change no run that ends well.** A program that runs to its end without an error does so
with roots appended, whatever is under them: it prints the same, executes as many instructions and
loads the same classes. Its class leaves no choice where it starts, or else the tables of both machines
give the same method first. -/
theorem start_widened {className : String} {limit : Nat} (h : start files className limit m = .ok () m₁)
    (more : List String) (order : MethodOrder)
    (hentry : ∀ c, (m.loader.resolve files className).result = .ok c →
      c.OneEntry ∨ c.entryPoint? order = c.entryPoint? m.order) :
    ∃ m₂, start files className limit (m.widened more order) = .ok () m₂ ∧
      m₂.streams = m₁.streams ∧ m₂.executed = m₁.executed ∧ m₂.calls = m₁.calls ∧
      m₂.loader.cache = m₁.loader.cache := by
  obtain ⟨_, entered, hprepare, hrun⟩ := exists_of_bind_eq_ok h
  obtain ⟨log, hprepare_eq⟩ := prepare_eq files className m
  obtain ⟨log', hprepare_eq'⟩ := prepare_eq files className (m.widened more order)
  have hclear : (m.put m.loader m.streams [] log).Beside m.natives (Widened more) 0 0
      ((m.widened more order).put (m.widened more order).loader m.streams [] log') :=
    (beside_widened m more order).put (beside_widened m more order).around [] log log'
  have hsame (c : Class) (hc : (m.loader.resolve files className).result = .ok c) :
      c.entryPoint? order = c.entryPoint? m.order := (hentry c hc).elim (·.entryPoint?_eq order m.order) id
  obtain ⟨entered', henter', hentered⟩ := enter_widened hclear hsame (hprepare_eq.symm.trans hprepare)
  obtain ⟨m₂, hrun', hbeside⟩ := run_widened hentered hrun
  refine ⟨m₂, ?_, ?_⟩
  · exact (bind_of_ok (hprepare_eq'.trans henter')).trans hrun'
  · obtain ⟨hloader, hstreams⟩ := Prod.mk.inj hbeside.around
    obtain ⟨count, hexecuted, hexecuted'⟩ := hbeside.executed
    exact ⟨hstreams, hexecuted'.trans hexecuted.symm, hbeside.calls, by rw [hloader]; rfl⟩

end

end Machine

/-! ### A program that inherits what it calls -/

namespace Sample

/-- The file of a class `B` with the superclass `C`. Its `main` calls `B.f()V`, which it inherits. -/
def heirFile : Bytes := [
  0xca, 0xfe, 0xba, 0xbe, 0x00, 0x00, 0x00, 0x34,
  -- the constants: the names, the classes 2 and 4, and the method 11
  0x00, 0x0c, 0x01, 0x00, 0x01, 0x42, 0x07, 0x00, 0x01, 0x01, 0x00, 0x01, 0x43, 0x07, 0x00, 0x03,
  0x01, 0x00, 0x04, 0x6d, 0x61, 0x69, 0x6e, 0x01, 0x00, 0x16, 0x28, 0x5b, 0x4c, 0x6a, 0x61, 0x76,
  0x61, 0x2f, 0x6c, 0x61, 0x6e, 0x67, 0x2f, 0x53, 0x74, 0x72, 0x69, 0x6e, 0x67, 0x3b, 0x29, 0x56,
  0x01, 0x00, 0x04, 0x43, 0x6f, 0x64, 0x65, 0x01, 0x00, 0x01, 0x66, 0x01, 0x00, 0x03, 0x28, 0x29,
  0x56, 0x0c, 0x00, 0x08, 0x00, 0x09, 0x0a, 0x00, 0x02, 0x00, 0x0a,
  -- this class and its superclass
  0x00, 0x21, 0x00, 0x02, 0x00, 0x04, 0x00, 0x00, 0x00, 0x00, 0x00, 0x01,
  -- `main`
  0x00, 0x09, 0x00, 0x05, 0x00, 0x06, 0x00, 0x01, 0x00, 0x07, 0x00, 0x00, 0x00, 0x10, 0x00, 0x00,
  0x00, 0x01, 0x00, 0x00, 0x00, 0x04, 0xb8, 0x00, 0x0b, 0xb1, 0x00, 0x00, 0x00, 0x00,
  0x00, 0x00]

/-- The file of `C`, whose `f` prints 5. -/
def parentFile : Bytes := [
  0xca, 0xfe, 0xba, 0xbe, 0x00, 0x00, 0x00, 0x34,
  -- the constants: the names, the class 2, the field 11 and the method 17
  0x00, 0x12, 0x01, 0x00, 0x01, 0x43, 0x07, 0x00, 0x01, 0x01, 0x00, 0x01, 0x66, 0x01, 0x00, 0x03,
  0x28, 0x29, 0x56, 0x01, 0x00, 0x04, 0x43, 0x6f, 0x64, 0x65, 0x01, 0x00, 0x10, 0x6a, 0x61, 0x76,
  0x61, 0x2f, 0x6c, 0x61, 0x6e, 0x67, 0x2f, 0x53, 0x79, 0x73, 0x74, 0x65, 0x6d, 0x07, 0x00, 0x06,
  0x01, 0x00, 0x03, 0x6f, 0x75, 0x74, 0x01, 0x00, 0x15, 0x4c, 0x6a, 0x61, 0x76, 0x61, 0x2f, 0x69,
  0x6f, 0x2f, 0x50, 0x72, 0x69, 0x6e, 0x74, 0x53, 0x74, 0x72, 0x65, 0x61, 0x6d, 0x3b, 0x0c, 0x00,
  0x08, 0x00, 0x09, 0x09, 0x00, 0x07, 0x00, 0x0a, 0x01, 0x00, 0x13, 0x6a, 0x61, 0x76, 0x61, 0x2f,
  0x69, 0x6f, 0x2f, 0x50, 0x72, 0x69, 0x6e, 0x74, 0x53, 0x74, 0x72, 0x65, 0x61, 0x6d, 0x07, 0x00,
  0x0c, 0x01, 0x00, 0x07, 0x70, 0x72, 0x69, 0x6e, 0x74, 0x6c, 0x6e, 0x01, 0x00, 0x04, 0x28, 0x49,
  0x29, 0x56, 0x0c, 0x00, 0x0e, 0x00, 0x0f, 0x0a, 0x00, 0x0d, 0x00, 0x10,
  -- this class, without a superclass
  0x00, 0x21, 0x00, 0x02, 0x00, 0x00, 0x00, 0x00, 0x00, 0x00, 0x00, 0x01,
  -- `f`
  0x00, 0x09, 0x00, 0x03, 0x00, 0x04, 0x00, 0x01, 0x00, 0x05, 0x00, 0x00, 0x00, 0x14, 0x00, 0x02,
  0x00, 0x00, 0x00, 0x00, 0x00, 0x08, 0xb2, 0x00, 0x0b, 0x08, 0xb6, 0x00, 0x11, 0xb1, 0x00, 0x00,
  0x00, 0x00,
  0x00, 0x00]

/-- Under `x` there is a `B` of its own, and something that is no class in the place of `C`. -/
def heirFiles : FileSystem := .ofRecord [
  ("r/B.class", .ok heirFile), ("r/C.class", .ok parentFile),
  ("x/B.class", .ok callerFile), ("x/C.class", .ok [0xca])]

/-- The program of `B` starts in one place. -/
theorem oneEntry_heir {c : Class} (h : (idle.loader.resolve heirFiles "B").result = .ok c) : c.OneEntry := by
  have hresult : (idle.loader.resolve heirFiles "B").result.map (fun c => decide c.OneEntry) = .ok true := by
    decide +kernel
  rw [h] at hresult
  exact of_decide_eq_true (Except.ok.inj hresult)

end Sample

/-- The program prints the same with the root `x` as without it. -/
theorem start_widened_heir :
    Sample.idle.answer (Machine.start Sample.heirFiles "B" 10) = .ok () ∧
      ∃ m₂, Machine.start Sample.heirFiles "B" 10 (Sample.idle.widened ["x"] .ofFile) = .ok () m₂ ∧
        m₂.streams.out.written = "5\n" ∧ m₂.executed = 6 ∧ m₂.loader.cache.map (·.1) = ["C", "B"] := by
  have hok : Sample.idle.answer (Machine.start Sample.heirFiles "B" 10) = .ok () := by decide +kernel
  obtain ⟨m₂, hrun, hstreams, hexecuted, -, hcache⟩ :=
    Machine.start_widened (Machine.eq_ok_of_answer hok) ["x"] .ofFile fun _ hc => .inl (Sample.oneEntry_heir hc)
  refine ⟨hok, m₂, hrun, ?_, ?_, ?_⟩
  · rw [hstreams]
    decide +kernel
  · rw [hexecuted]
    decide +kernel
  · rw [hcache]
    decide +kernel

/-! ### A program that may start in two places -/

namespace Sample

/-- The file of a class `A` with two methods that may stand for its `main`: one returns, the other one divides
by zero. -/
def twinsFile : Bytes := [
  0xca, 0xfe, 0xba, 0xbe, 0x00, 0x00, 0x00, 0x34,
  -- the constants: the names, the class 2 and the descriptors
  0x00, 0x07, 0x01, 0x00, 0x01, 0x41, 0x07, 0x00, 0x01, 0x01, 0x00, 0x04, 0x6d, 0x61, 0x69, 0x6e,
  0x01, 0x00, 0x03, 0x28, 0x29, 0x56, 0x01, 0x00, 0x03, 0x28, 0x29, 0x49,
  0x01, 0x00, 0x04, 0x43, 0x6f, 0x64, 0x65,
  -- this class, without a superclass
  0x00, 0x21, 0x00, 0x02, 0x00, 0x00, 0x00, 0x00, 0x00, 0x00, 0x00, 0x02,
  -- `main()V`
  0x00, 0x09, 0x00, 0x03, 0x00, 0x04, 0x00, 0x01, 0x00, 0x06, 0x00, 0x00, 0x00, 0x0d, 0x00, 0x00,
  0x00, 0x00, 0x00, 0x00, 0x00, 0x01, 0xb1, 0x00, 0x00, 0x00, 0x00,
  -- `main()I`
  0x00, 0x09, 0x00, 0x03, 0x00, 0x05, 0x00, 0x01, 0x00, 0x06, 0x00, 0x00, 0x00, 0x10, 0x00, 0x02,
  0x00, 0x00, 0x00, 0x00, 0x00, 0x04, 0x04, 0x03, 0x6c, 0xac, 0x00, 0x00, 0x00, 0x00,
  0x00, 0x00]

/-- There is nothing but `A`. -/
def twinsFiles : FileSystem := .ofRecord [("r/A.class", .ok twinsFile)]

/-- The second method of `A`. -/
def secondTwin : Method where
  name := "main"
  descriptor := "()I"
  access := 9
  type := ⟨[], some (.primitive .int)⟩
  maxStack := 2
  maxLocals := 0
  code := some #[⟨0, .iconst1, .int 1⟩, ⟨1, .iconst0, .int 0⟩, ⟨2, .idiv, .none⟩, ⟨3, .ireturn, .none⟩]

end Sample

/-- The program ends well in the order of the file. On a machine with one more root, whose table gives the
other method first, it fails. -/
theorem start_widened_fails_twins :
    Sample.idle.answer (Machine.start Sample.twinsFiles "A" 10) = .ok () ∧
      (Sample.idle.widened ["x"] (.first Sample.secondTwin)).answer (Machine.start Sample.twinsFiles "A" 10) =
        .error (.failed (.arithmetic "/ by zero")) := by
  constructor <;> decide +kernel

end Jvm
