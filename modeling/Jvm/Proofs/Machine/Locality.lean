import Jvm.Proofs.Frame.Locality
import Jvm.Proofs.Machine.ByteAddressed
import Jvm.Proofs.Machine.Requests

/-!
# A run depends on its own frames only

Take the frames of a machine apart: those on top, where a run begins, and those below, which it never
comes down to. The run goes the same way above any other frames, and with more values below the operands
of its own frames, as long as there is room for as many frames. `Rebased` relates the two machines.

An instruction that succeeds does not look at such values (`outcome_padded`), carrying it out does not
reach them (`settle_padded`), so the machines stay related from step to step (`step_rebased`). A frame
that the run pushes has no values inserted, and one that it pops takes its own along. Main theorem
`run_rebased`.
-/

namespace Jvm

/-! ## Instructions -/

/-- The effect with values inserted below the operands of the running frame. -/
def Effect.padded (pad : List Value) : Effect → Effect
  | .stay f => .stay (f.padded pad)
  | .call caller callee => .call (caller.padded pad) callee
  | .leave => .leave
  | .give v => .give v
  | .fail e f => .fail e (f.padded pad)
  | .hang => .hang

/-- The outcome with values inserted below the operands of the running frame. -/
def Outcome.padded (pad : List Value) (o : Outcome) : Outcome := { o with effect := o.effect.padded pad }

section
variable {files : FileSystem} {natives : NativeTable} {inst : Instruction Nat} {f : Frame} {loader : Loader}
  {streams : Streams} (pad : List Value)

theorem Frame.pushed_padded (f : Frame) (v : Value) : (f.padded pad).pushed v = (f.pushed v).padded pad := rfl

theorem Frame.dropped_padded {n : Nat} (h : n ≤ f.stack.length) :
    (f.padded pad).dropped n = (f.dropped n).padded pad := by
  simp only [dropped, padded, List.drop_append_of_le_length h]

theorem Frame.operands_padded {n : Nat} (h : n ≤ f.stack.length) : (f.padded pad).operands n = f.operands n := by
  simp only [operands, padded, List.take_append_of_le_length h]

theorem Frame.enough_padded {n : Nat} (h : n ≤ f.stack.length) : ¬(f.padded pad).stack.length < n := by
  simp only [padded, List.length_append]
  omega

theorem Outcome.native_padded (action : NativeAction) (call : NativeCall) (f : Frame) (loader : Loader)
    (streams : Streams) :
    native action call (f.padded pad) loader streams = (native action call f loader streams).padded pad := by
  unfold native
  cases action call streams with
  | error e streams => rfl
  | ok result streams => cases result <;> rfl

theorem Outcome.bytecode_padded {target : MemberRef} (h : (bytecode files target f loader streams).effect.Succeeds) :
    bytecode files target (f.padded pad) loader streams = (bytecode files target f loader streams).padded pad := by
  unfold bytecode at h ⊢
  cases hfound : (loader.findMethod files target).result with
  | error stop =>
    simp only [hfound] at h
    cases stop <;> cases h
  | ok found =>
    obtain ⟨owner, method⟩ := found
    simp only [hfound] at h ⊢
    by_cases hcode : (!method.isStatic || method.code.isNone) = true
    · rw [if_pos hcode] at h
      cases h
    · rw [if_neg hcode] at h ⊢
      rw [if_neg hcode]
      by_cases hshort : f.stack.length < method.argumentCount
      · rw [if_pos hshort] at h
        cases h
      · have henough := Nat.le_of_not_lt hshort
        rw [if_neg hshort, if_neg (Frame.enough_padded pad henough),
          Frame.dropped_padded pad henough, Frame.operands_padded pad henough]
        rfl

theorem Outcome.invokeStatic_padded (h : (invokeStatic files natives inst f loader streams).effect.Succeeds) :
    invokeStatic files natives inst (f.padded pad) loader streams =
      (invokeStatic files natives inst f loader streams).padded pad := by
  have hsame : (f.padded pad).callSite inst = f.callSite inst := rfl
  unfold invokeStatic at h ⊢
  rw [hsame]
  cases hsite : f.callSite inst with
  | error e =>
    rw [hsite] at h
    cases h
  | ok site =>
    obtain ⟨target, types⟩ := site
    simp only [hsite] at h ⊢
    cases hmethod : natives.method? .static target.owner target.name types.length with
    | none =>
      simp only [hmethod] at h
      exact bytecode_padded pad h
    | some action =>
      simp only [hmethod] at h ⊢
      by_cases hshort : f.stack.length < types.length
      · rw [if_pos hshort] at h
        cases h
      · have henough := Nat.le_of_not_lt hshort
        rw [if_neg hshort, if_neg (Frame.enough_padded pad henough),
          Frame.dropped_padded pad henough, Frame.operands_padded pad henough]
        exact native_padded pad _ _ _ _ _

theorem Outcome.invokeVirtual_padded (h : (invokeVirtual natives inst f loader streams).effect.Succeeds) :
    invokeVirtual natives inst (f.padded pad) loader streams =
      (invokeVirtual natives inst f loader streams).padded pad := by
  have hsame : (f.padded pad).callSite inst = f.callSite inst := rfl
  unfold invokeVirtual at h ⊢
  rw [hsame]
  cases hsite : f.callSite inst with
  | error e =>
    rw [hsite] at h
    cases h
  | ok site =>
    obtain ⟨target, types⟩ := site
    simp only [hsite] at h ⊢
    cases hmethod : natives.method? .virtual target.owner target.name types.length with
    | none =>
      simp only [hmethod] at h
      cases h
    | some action =>
      simp only [hmethod] at h ⊢
      by_cases hshort : f.stack.length < types.length
      · rw [if_pos hshort] at h
        cases h
      · have henough := Nat.le_of_not_lt hshort
        rw [if_neg hshort] at h ⊢
        rw [if_neg (Frame.enough_padded pad henough)]
        have hbelow : (f.padded pad).stack.drop types.length = f.stack.drop types.length ++ pad :=
          List.drop_append_of_le_length henough
        cases hdrop : f.stack.drop types.length with
        | nil =>
          rw [hdrop] at h
          cases h
        | cons receiver rest =>
          have hmore : types.length + 1 ≤ f.stack.length := by
            have hlength := congrArg List.length hdrop
            rw [List.length_drop, List.length_cons] at hlength
            omega
          simp only [hbelow, hdrop, List.cons_append, Frame.operands_padded pad henough,
            Frame.dropped_padded pad hmore]
          exact native_padded pad _ _ _ _ _

theorem Outcome.within_padded {α : Type} {act : OnFrame α} {next : α → Frame → Effect} (hact : Frame.Local act)
    (hnext : ∀ a f, next a (f.padded pad) = (next a f).padded pad) (h : (within act next f).Succeeds) :
    within act next (f.padded pad) = (within act next f).padded pad := by
  unfold within at h ⊢
  cases hrun : act f with
  | error e f' =>
    rw [hrun] at h
    cases h
  | ok a f' =>
    rw [hact f a f' hrun pad]
    exact hnext a f'

/-- **An instruction that succeeds** does not look at what is below its operands. -/
theorem outcome_padded {pc : Nat} (h : (outcome files natives inst pc f loader streams).effect.Succeeds) :
    outcome files natives inst pc (f.padded pad) loader streams =
      (outcome files natives inst pc f loader streams).padded pad := by
  have hsame : (f.padded pad).staticField natives inst = f.staticField natives inst := rfl
  unfold outcome at h ⊢
  cases hop : inst.opcode.operation with
  | within op =>
    simp only [hop] at h
    exact congrArg (Outcome.mk · loader streams)
      (Outcome.within_padded pad (Frame.perform_local op inst) (fun _ _ => rfl) h)
  | getStatic =>
    rw [hsame]
    cases f.staticField natives inst <;> rfl
  | invokeStatic =>
    simp only [hop] at h
    exact Outcome.invokeStatic_padded pad h
  | invokeVirtual =>
    simp only [hop] at h
    exact Outcome.invokeVirtual_padded pad h
  | returnVoid => rfl
  | returnInt =>
    simp only [hop] at h
    exact congrArg (Outcome.mk · loader streams)
      (Outcome.within_padded pad Frame.local_popInt (fun _ _ => rfl) h)
  | returnReference =>
    simp only [hop] at h
    exact congrArg (Outcome.mk · loader streams)
      (Outcome.within_padded pad Frame.local_popReference (fun _ _ => rfl) h)
  | unsupported => rfl

end

/-! ## Frames -/

/-- What is inserted into each of the topmost frames, once their number has gone from `before` down to
`lowest` and up to `after`: new frames have nothing, and frames that have gone have taken theirs along. -/
def padsAfter (pads : List (List Value)) (before lowest after : Nat) : List (List Value) :=
  List.replicate (after - lowest) [] ++ pads.drop (before - lowest)

section
variable (pads : List (List Value)) (n : Nat)

theorem padsAfter_same : padsAfter pads n n n = pads := by simp [padsAfter]

theorem padsAfter_push : padsAfter pads n n (n + 1) = [] :: pads := by simp [padsAfter]

theorem padsAfter_pop (pad : List Value) : padsAfter (pad :: pads) (n + 1) n n = pads := by simp [padsAfter]

/-- First from `before` to `between`, then on to `after`. -/
theorem padsAfter_padsAfter {before between lowest after : Nat} (hbetween : lowest ≤ between)
    (hafter : lowest ≤ after) :
    padsAfter (padsAfter pads before (min before between) between) between lowest after =
      padsAfter pads before (min before lowest) after := by
  simp only [padsAfter, List.drop_append, List.drop_replicate, List.length_replicate, List.drop_drop,
    ← List.append_assoc, List.replicate_append_replicate]
  congr 2 <;> omega

end

/-- What is carried out does not reach below the frames on top. -/
theorem Effect.settle_padded {effect : Effect} {limit limit' : Nat} {base base' below frames : List Frame}
    {pads : List (List Value)} (hroom : limit' - base'.length = limit - base.length)
    (hlength : below.length = pads.length) (h : effect.settle limit (below ++ base) = some (none, frames))
    (habove : base.length < frames.length) (pad : List Value) :
    ∃ tops pads', tops.length = pads'.length ∧ frames = tops ++ base ∧
      pads' = padsAfter (pad :: pads) ((below ++ base).length + 1) (min ((below ++ base).length + 1) frames.length)
        frames.length ∧
      (effect.padded pad).settle limit' (List.zipWith Frame.padded below pads ++ base') =
        some (none, List.zipWith Frame.padded tops pads' ++ base') := by
  cases effect with
  | fail | hang => cases h
  | stay f =>
    cases h
    refine ⟨f :: below, pad :: pads, congrArg (· + 1) hlength, rfl, ?_, rfl⟩
    simp only [List.length_cons, Nat.min_self, padsAfter_same]
  | call caller callee =>
    by_cases hlimit : limit ≤ (below ++ base).length + 1
    · simp only [settle, if_pos hlimit] at h
      cases h
    · simp only [settle, if_neg hlimit] at h
      cases h
      have hlimit' : ¬limit' ≤ (List.zipWith Frame.padded below pads ++ base').length + 1 := by
        simp only [List.length_append, List.length_zipWith, hlength, Nat.min_self] at hlimit ⊢
        omega
      refine ⟨callee :: caller :: below, [] :: pad :: pads, congrArg (· + 2) hlength, rfl, ?_, ?_⟩
      · simp only [List.length_cons, Nat.min_eq_left (Nat.le_succ _), padsAfter_push]
      · simp only [padded, settle, if_neg hlimit', List.zipWith_cons_cons, Frame.padded_nil, List.cons_append]
  | leave =>
    cases h
    refine ⟨below, pads, hlength, rfl, ?_, rfl⟩
    rw [Nat.min_eq_right (Nat.le_succ _), padsAfter_pop]
  | give v =>
    cases below with
    | nil =>
      -- the value would go to a frame of `base`
      cases base with
      | nil => cases h
      | cons caller rest =>
        cases h
        exact absurd habove (Nat.lt_irrefl _)
    | cons caller below =>
      cases pads with
      | nil => cases hlength
      | cons own pads =>
        obtain rfl : caller.pushed v :: (below ++ base) = frames := by simpa [settle] using h
        refine ⟨caller.pushed v :: below, own :: pads, hlength, rfl, ?_, ?_⟩
        · simp only [List.length_cons, List.cons_append, Nat.min_eq_right (Nat.le_succ _), padsAfter_pop]
        · simp only [padded, settle, List.zipWith_cons_cons, List.cons_append, Frame.pushed_padded]

/-! ## Machines -/

namespace Machine

/-- The machines differ in the frames below, which are `base` and `base'`, and in the values `pads` that are
inserted into the frames on top. There is room for as many frames. -/
structure Rebased (base base' : List Frame) (pads : List (List Value)) (m m' : Machine) : Prop where
  loader : m'.loader = m.loader
  natives : m'.natives = m.natives
  streams : m'.streams = m.streams
  room : m'.calls.limit - base'.length = m.calls.limit - base.length
  frames : ∃ tops, tops.length = pads.length ∧ m.calls.frames = tops ++ base ∧
    m'.calls.frames = List.zipWith Frame.padded tops pads ++ base'

/-- The least number of frames during a run. -/
def lowest : Machine → List FileSystem → Nat
  | m, [] => m.calls.depth
  | m, files :: rest => min m.calls.depth ((m.next files).lowest rest)

/-- Where the next instruction stands: its class, its method and its index. -/
def position (m : Machine) : Option (Class × Method × Nat) := m.calls.top?.map fun f => (f.owner, f.method, f.pc)

/-- The instructions of a run, by where they stand. -/
def trace : Machine → List FileSystem → List (Option (Class × Method × Nat))
  | _, [] => []
  | m, files :: rest => m.position :: (m.next files).trace rest

section
variable {base base' : List Frame} {pads : List (List Value)} {m m' m₁ : Machine} {files : FileSystem}

theorem next_of_step {again : Bool} (h : step files m = .ok again m₁) : m.next files = m₁ := by
  rw [next, h]

theorem lowest_le (m : Machine) (run : List FileSystem) : m.lowest run ≤ m.calls.depth := by
  cases run with
  | nil => exact Nat.le_refl _
  | cons files rest => exact Nat.min_le_left _ _

theorem lowest_le_of_run {run : List FileSystem} (h : runWith step run m = .ok () m₁) :
    m.lowest run ≤ m₁.calls.depth := by
  induction run generalizing m with
  | nil =>
    cases h
    exact Nat.le_refl _
  | cons files rest ih =>
    obtain ⟨again, between, hstep, hrest⟩ := exists_of_bind_eq_ok h
    rw [lowest, next_of_step hstep]
    exact (Nat.min_le_right _ _).trans (ih hrest)

/-- **One step** that succeeds and stays above the frames below. -/
theorem step_rebased {again : Bool} (h : Rebased base base' pads m m') (hstep : step files m = .ok again m₁)
    (hbefore : base.length < m.calls.depth) (hafter : base.length < m₁.calls.depth) :
    m'.position = m.position ∧ m₁.executed = m.executed + 1 ∧
      ∃ m₁', step files m' = .ok again m₁' ∧ m₁'.executed = m'.executed + 1 ∧
        Rebased base base' (padsAfter pads m.calls.depth (min m.calls.depth m₁.calls.depth) m₁.calls.depth) m₁ m₁' := by
  obtain ⟨hloader, hnatives, hstreams, hroom, tops, hlength, hframes, hframes'⟩ := h
  cases tops with
  | nil =>
    rw [CallStack.depth, hframes] at hbefore
    exact absurd hbefore (Nat.lt_irrefl _)
  | cons f below =>
    cases pads with
    | nil => cases hlength
    | cons pad pads =>
      have hm : m.calls.frames = f :: (below ++ base) := hframes
      have hm' : m'.calls.frames = f.padded pad :: (List.zipWith Frame.padded below pads ++ base') := hframes'
      have hposition : m'.position = m.position := by
        simp only [position, CallStack.top?, hm, hm', List.head?_cons, Option.map_some]
        rfl
      cases hfetch : f.fetch? with
      | error e => cases (step_of_fetch_error hm hfetch files).symm.trans hstep
      | ok inst =>
        have hfetch' : (f.padded pad).fetch? = .ok inst := hfetch
        obtain ⟨log, hconclude⟩ := step_eq hm hfetch files
        obtain ⟨log', hconclude'⟩ := step_eq hm' hfetch' files
        obtain ⟨frames, hsettle, -⟩ := conclude_eq_ok (hconclude.symm.trans hstep)
        have houtcome := outcome_padded pad (Effect.succeeds_of_settle hsettle)
        rw [hnatives, hloader, hstreams] at hconclude'
        replace hconclude' := hconclude'.trans (congrArg (m'.conclude _ · log') houtcome)
        generalize outcome files m.natives inst f.pc { f with pc := f.pc + 1 } m.loader m.streams = o at *
        cases (conclude_of_settle hsettle log).symm.trans (hconclude.symm.trans hstep)
        obtain ⟨tops, pads', hlength', rfl, rfl, hsettle'⟩ :=
          Effect.settle_padded hroom (Nat.succ.inj hlength) hsettle hafter pad
        have hdepth : m.calls.depth = (below ++ base).length + 1 := congrArg List.length hm
        rw [hdepth]
        exact ⟨hposition, rfl, _, hconclude'.trans (conclude_of_settle (o := o.padded pad) hsettle' log'), rfl, rfl,
          hnatives, rfl, hroom, tops, hlength', rfl, rfl⟩

/-- **A run depends on its own frames only.** Let all steps of a run succeed and stay above the frames
`base`. Above other frames, and with values inserted below the operands of its own frames, the run succeeds
too and executes the same instructions. It does the same to the loader and the streams, it leaves the frames
below as they are, and its own frames are the same again but for the values inserted into those of them
that were there all the time. -/
theorem run_rebased {run : List FileSystem} (h : Rebased base base' pads m m')
    (hrun : runWith step run m = .ok () m₁) (habove : base.length < m.lowest run) :
    ∃ m₁', runWith step run m' = .ok () m₁' ∧
      Rebased base base' (padsAfter pads m.calls.depth (m.lowest run) m₁.calls.depth) m₁ m₁' ∧
      m'.trace run = m.trace run ∧
      m₁.executed = m.executed + run.length ∧ m₁'.executed = m'.executed + run.length := by
  induction run generalizing m m' pads with
  | nil =>
    cases hrun
    refine ⟨m', rfl, ?_, rfl, rfl, rfl⟩
    rw [lowest, padsAfter_same]
    exact h
  | cons files rest ih =>
    obtain ⟨again, between, hstep, hrest⟩ := exists_of_bind_eq_ok hrun
    have hlowest : m.lowest (files :: rest) = min m.calls.depth (between.lowest rest) := by
      rw [lowest, next_of_step hstep]
    have hbetween := lowest_le between rest
    have hlast := lowest_le_of_run hrest
    rw [hlowest] at habove
    obtain ⟨hposition, hexecuted, between', hstep', hexecuted', hrebased⟩ :=
      step_rebased h hstep (by omega) (by omega)
    obtain ⟨m₁', hrest', hlater, htrace, hcount, hcount'⟩ := ih hrebased hrest (by omega)
    refine ⟨m₁', ?_, ?_, ?_, ?_, ?_⟩
    · rw [runWith, bind_of_ok hstep']
      exact hrest'
    · rw [padsAfter_padsAfter pads hbetween hlast] at hlater
      rw [hlowest]
      exact hlater
    · rw [trace, trace, hposition, next_of_step hstep, next_of_step hstep', htrace]
    · rw [hcount, hexecuted, List.length_cons, Nat.add_right_comm, Nat.add_assoc]
    · rw [hcount', hexecuted', List.length_cons, Nat.add_right_comm, Nat.add_assoc]

end

end Machine

/-! ### A call that comes back -/

namespace Sample

/-- The machine `machine` without the frame that waits below, and with an integer below the operands of the
frame that calls. -/
def elsewhere : Machine :=
  { machine with calls := { frames := [caller.padded [.int 7]], limit := 1023 } }

end Sample

/-- The call, the two instructions of `second`, and the `pop` of its result. -/
theorem run_rebased_second :
    ∃ m₁ m₁', Machine.runWith Machine.step (List.replicate 4 (.ofRecord [])) Sample.machine = .ok () m₁ ∧
      Machine.runWith Machine.step (List.replicate 4 (.ofRecord [])) Sample.elsewhere = .ok () m₁' ∧
      Machine.Rebased [Sample.caller] [] [[.int 7]] m₁ m₁' ∧
      m₁.calls.frames.map (·.stack) = [[.null], [.int 2, .int 1, .null]] := by
  have hok : Sample.machine.answer (Machine.runWith Machine.step (List.replicate 4 (.ofRecord []))) = .ok () := by
    decide +kernel
  have hstart : Machine.Rebased [Sample.caller] [] [[.int 7]] Sample.machine Sample.elsewhere :=
    ⟨rfl, rfl, rfl, rfl, [Sample.caller], rfl, rfl, rfl⟩
  obtain ⟨m₁', hrun', hrebased, -⟩ := Machine.run_rebased hstart (Machine.eq_ok_of_answer hok) (by decide +kernel)
  refine ⟨_, m₁', Machine.eq_ok_of_answer hok, hrun', ?_, by decide +kernel⟩
  have hpads : padsAfter [[.int 7]] Sample.machine.calls.depth
      (Sample.machine.lowest (List.replicate 4 (.ofRecord [])))
      (Sample.machine.leftBy (Machine.runWith Machine.step (List.replicate 4 (.ofRecord [])))).calls.depth =
        [[.int 7]] := by decide +kernel
  rwa [hpads] at hrebased

end Jvm
