import Jvm.Proofs.Machine.Program

/-!
# Reachable machines

What holds of every machine that a host can bring about, whatever it asks for and whatever fails on
the way. `Frame.Proper` says what each frame is like: an invocation of a static method with code, taken
from the class that the loader has, with its counter inside the code. `Frame.Waits` is what a frame is
like that has called another one. `Stacked` puts the frames on top of each other, beside the
invocations that they began as.

One instruction is `stacked_of_case`, one step `Sound.next`, one request `Sound.after`. Main theorem
`reachable_sound`.
-/

namespace Jvm

/-! ## Frames -/

/-- A frame as it should be, in a machine with this loader. -/
structure Frame.Proper (loader : Loader) (f : Frame) : Prop where
  static : f.method.isStatic = true
  /-- The method is the one that its class declares under its name and descriptor. -/
  declared : f.owner.method? f.method.name f.method.descriptor = some f.method
  /-- No parameter is of a 64-bit type. -/
  narrow : ∀ type ∈ f.method.type.parameters, type.isWide = false
  /-- The class is the one that the loader has under its name. -/
  cached : loader.cached? f.owner.name = some f.owner
  code : ∃ code, f.method.code = some code ∧ f.pc ≤ code.size

/-- The frame has moved past a static call. -/
def Frame.Waits (f : Frame) : Prop :=
  1 ≤ f.pc ∧ ∃ code inst, f.method.code = some code ∧ code[f.pc - 1]? = some inst ∧ inst.opcode = .invokestatic

section
variable {loader later : Loader} {f g : Frame} {inst : Instruction Nat}

theorem Frame.Proper.mono (h : f.Proper loader) (hl : loader.Extends later) : f.Proper later :=
  { h with cached := hl.cached _ _ h.cached }

/-- A later state of the invocation is proper if its counter is. -/
theorem Frame.Proper.of_continues (h : f.Proper loader) (hg : f.Continues g)
    (hpc : ∀ code, f.method.code = some code → g.pc ≤ code.size) : g.Proper loader where
  static := by rw [hg.method]; exact h.static
  declared := by rw [hg.method, hg.owner]; exact h.declared
  narrow := by rw [hg.method]; exact h.narrow
  cached := by rw [hg.owner]; exact h.cached
  code := by
    obtain ⟨code, hcode, -⟩ := h.code
    exact ⟨code, by rw [hg.method]; exact hcode, hpc code hcode⟩

/-- The code of a proper frame has been decoded. -/
theorem Frame.Proper.exists_bytes (h : f.Proper loader) (hl : loader.Used) :
    ∃ code bytes, f.method.code = some code ∧ f.pc ≤ code.size ∧ Code.decode bytes = .ok code := by
  obtain ⟨code, hcode, hpc⟩ := h.code
  have hclass : f.owner.Decoded := (hl.sound _ _ h.cached).2.decoded
  obtain ⟨bytes, hdecode⟩ := Class.decoded_method? hclass h.declared code hcode
  exact ⟨code, bytes, hcode, hpc, hdecode⟩

/-- An instruction leaves the counter inside the code. -/
theorem Frame.Proper.advances (h : f.Proper loader) (hl : loader.Used) (hfetch : f.fetch? = .ok inst)
    (hg : Advances inst { f with pc := f.pc + 1 } g) : g.Proper loader := by
  have hmoved : f.Continues { f with pc := f.pc + 1 } := ⟨rfl, rfl, rfl⟩
  refine h.of_continues (hmoved.trans hg.toContinues) fun code hcode => ?_
  obtain ⟨code', bytes, hcode', -, hdecode⟩ := h.exists_bytes hl
  cases hcode.symm.trans hcode'
  have hinst := getElem?_of_fetch? hcode hfetch
  obtain ⟨hlt, -⟩ := Array.getElem?_eq_some_iff.1 hinst
  rcases hg.pc with hpc | hbranch
  · rw [hpc]
    exact hlt
  · exact Nat.le_of_lt (Code.branch_lt_of_decode hdecode (Array.mem_of_getElem? hinst) hbranch)

theorem Frame.Proper.pushed (h : f.Proper loader) (v : Value) : (f.pushed v).Proper loader := by
  refine h.of_continues (f.continues_pushed v) fun code hcode => ?_
  obtain ⟨code', hcode', hpc⟩ := h.code
  cases hcode.symm.trans hcode'
  exact hpc

theorem Frame.size_ofCall (owner : Class) (method : Method) (arguments : List Value) :
    (ofCall owner method arguments).locals.size = max method.maxLocals.toNat arguments.length := by
  simp only [ofCall, List.size_toArray, List.length_append, List.length_replicate]
  omega

theorem Frame.length_operands {n : Nat} (h : n ≤ f.stack.length) : (f.operands n).length = n := by
  rw [operands, List.length_reverse, List.length_take, Nat.min_eq_left h]

/-! ## Frames on top of each other -/

/-- The frame is a later state of the invocation. -/
structure Invocation.Runs (loader : Loader) (began : Invocation) (f : Frame) : Prop where
  continues : began.frame.Continues f
  slots : f.locals.size = began.origin.slots f.method
  proper : f.Proper loader

/-- Each frame is a later state of its invocation, and waits if it has called the one above it. -/
inductive Stacked (loader : Loader) : List Invocation → List Frame → Prop
  | nil : Stacked loader [] []
  | cons {began : Invocation} {f : Frame} {known : List Invocation} {below : List Frame} : began.Runs loader f →
      (began.origin = .call → ∃ caller ∈ below.head?, caller.Waits) → Stacked loader known below →
      Stacked loader (began :: known) (f :: below)

theorem Invocation.Runs.mono {began : Invocation} (h : began.Runs loader f) (hl : loader.Extends later) :
    began.Runs later f := { h with proper := h.proper.mono hl }

theorem Invocation.Runs.trans {began : Invocation} (h : began.Runs loader f) (hg : f.Continues g)
    (hproper : g.Proper loader) : began.Runs loader g :=
  ⟨h.continues.trans hg, by rw [hg.locals, hg.method]; exact h.slots, hproper⟩

/-- A frame begins as itself. -/
theorem Invocation.runs_self {origin : Origin} (hslots : f.locals.size = origin.slots f.method)
    (hproper : f.Proper loader) : Invocation.Runs loader ⟨origin, f⟩ f := ⟨.refl f, hslots, hproper⟩

namespace Stacked
variable {known : List Invocation} {frames below : List Frame}

theorem mono (h : Stacked loader known frames) (hl : loader.Extends later) : Stacked later known frames := by
  induction h with
  | nil => exact .nil
  | cons hruns hcaller _ ih => exact .cons (hruns.mono hl) hcaller ih

theorem length_eq (h : Stacked loader known frames) : known.length = frames.length := by
  induction h with
  | nil => rfl
  | cons _ _ _ ih => simp only [List.length_cons, ih]

/-- The frame on top goes on. -/
theorem replace (h : Stacked loader known (f :: below)) (hg : f.Continues g) (hproper : g.Proper loader) :
    Stacked loader known (g :: below) := by
  cases h with
  | cons hruns hcaller hbelow => exact .cons (hruns.trans hg hproper) hcaller hbelow

theorem uncons (h : Stacked loader known (f :: below)) :
    ∃ began rest, known = began :: rest ∧ f.Proper loader ∧ Stacked loader rest below := by
  cases h with
  | cons hruns _ hbelow => exact ⟨_, _, rfl, hruns.proper, hbelow⟩

theorem proper (h : Stacked loader known frames) : ∀ f ∈ frames, f.Proper loader := by
  induction h with
  | nil => simp
  | cons hruns _ _ ih =>
    intro f hf
    rcases List.mem_cons.1 hf with rfl | hf
    · exact hruns.proper
    · exact ih f hf

theorem forall₂ (h : Stacked loader known frames) : List.Forall₂ (Invocation.Runs loader) known frames := by
  induction h with
  | nil => exact .nil
  | cons hruns _ _ ih => exact .cons hruns ih

end Stacked

namespace Invocation

/-- No program was entered on top of another. -/
def OneProgram (known : List Invocation) : Prop := known.Pairwise fun above _ => above.origin = .call

theorem OneProgram.follow_call {known : List Invocation} (h : OneProgram known) (before : Nat) (frames : List Frame) :
    OneProgram (follow .call known before frames) := by
  refine List.pairwise_append.2 ⟨?_, h.sublist (List.drop_sublist _ _), ?_⟩
  · exact List.pairwise_map.2 (List.pairwise_of_forall fun _ _ => rfl)
  · intro above habove _ _
    obtain ⟨f, -, rfl⟩ := List.mem_map.1 habove
    rfl

theorem oneProgram_entry (before : Nat) {frames : List Frame} (h : frames.length ≤ 1) :
    OneProgram (follow .entry [] before frames) := by
  have hlength : (follow .entry [] before frames).length ≤ 1 := by
    simp only [follow, List.drop_nil, List.append_nil, List.length_map, List.length_take]
    omega
  match hfollow : follow .entry [] before frames with
  | [] => exact .nil
  | [_] => exact List.pairwise_singleton _ _
  | _ :: _ :: _ =>
    rw [hfollow] at hlength
    simp at hlength

end Invocation

/-- Below the top of a single program, every frame has called another one. -/
theorem Stacked.waits {known : List Invocation} {frames : List Frame} (h : Stacked loader known frames)
    (hone : Invocation.OneProgram known) : ∀ f ∈ frames.tail, f.Waits := by
  induction h with
  | nil => simp
  | @cons began top known below _ hcaller hbelow ih =>
    obtain ⟨hcall, hone⟩ := List.pairwise_cons.1 hone
    intro f hf
    cases hbelow with
    | nil => cases hf
    | @cons began' caller _ rest _ _ _ =>
      rcases List.mem_cons.1 hf with rfl | hf
      · obtain ⟨_, hhead, hwaits⟩ := hcaller (hcall began' List.mem_cons_self)
        cases hhead
        exact hwaits
      · exact ih hone f hf

/-! ## One instruction -/

/-- The parameters of a method that a call has found are those of the call. -/
theorem Outcome.proper_callee {files : FileSystem} {target : MemberRef} {types : List FieldType} {owner : Class}
    {method : Method} (hl : loader.Used) (hsite : f.callSite inst = .ok (target, types))
    (hfound : (loader.findMethod files target).result = .ok (owner, method)) (hstatic : method.isStatic = true)
    (hcode : method.code.isSome = true) (arguments : List Value) :
    Frame.Proper (loader.findMethod files target).loader (.ofCall owner method arguments) := by
  obtain ⟨hcached, hmethod⟩ := Loader.cached_of_findMethod hl hfound
  obtain ⟨hmem, hname, hdescriptor⟩ := Class.mem_of_method? hmethod
  have hdeclared : owner.Declared := ((hl.findMethod files target).sound _ _ hcached).2
  obtain ⟨code, hcode⟩ := Option.isSome_iff_exists.1 hcode
  refine ⟨hstatic, hdeclared.method?_of_mem hmem, ?_, hcached, code, hcode, Nat.zero_le _⟩
  -- the call site has read the types off the same descriptor
  obtain ⟨index, -, hsite⟩ := exists_of_bind_ok hsite
  obtain ⟨target', -, hsite⟩ := exists_of_bind_ok hsite
  obtain ⟨types', htypes, hsite⟩ := exists_of_bind_ok hsite
  cases hsite
  have htyped : MethodType.ofDescriptor? target.descriptor = some method.type := by
    rw [← hdescriptor]
    exact hdeclared.typed hmem
  unfold Machine.callTypes at htypes
  rw [htyped] at htypes
  simp only at htypes
  split at htypes
  · cases htypes
  · rename_i hnarrow
    intro type htype
    simp only [List.any_eq_true, not_exists, not_and, Bool.not_eq_true] at hnarrow
    exact hnarrow type htype

/-- The caller of a method waits for it. -/
theorem Frame.waits_of_fetch? (h : f.Proper loader) (hfetch : f.fetch? = .ok inst)
    (hop : inst.opcode = .invokestatic) (hg : f.Continues g) (hpc : g.pc = f.pc + 1) : g.Waits := by
  obtain ⟨code, hcode, -⟩ := h.code
  refine ⟨by omega, code, inst, by rw [hg.method]; exact hcode, ?_, hop⟩
  rw [hpc, Nat.add_sub_cancel]
  exact getElem?_of_fetch? hcode hfetch

namespace Invocation
variable (origin : Origin) (known : List Invocation)

theorem follow_same (frames : List Frame) : follow origin known frames.length frames = known := by simp [follow]

theorem follow_push (f : Frame) (frames : List Frame) :
    follow origin known frames.length (f :: frames) = ⟨origin, f⟩ :: known := by simp [follow]

theorem follow_pop (began : Invocation) (frames : List Frame) :
    follow origin (began :: known) (frames.length + 1) frames = known := by simp [follow]

end Invocation

/-- **One instruction.** -/
theorem stacked_of_case {files : FileSystem} {natives : NativeTable} {known : List Invocation}
    {below frames : List Frame} {o : Outcome} {limit : Nat} {fault : Option Error} (hl : loader.Used) (hs : Stacked loader known (f :: below))
    (hfetch : f.fetch? = .ok inst) (hcase : Outcome.Case files natives inst { f with pc := f.pc + 1 } loader o)
    (hsettle : o.effect.settle limit below = some (fault, frames)) :
    Stacked o.loader (Invocation.follow .call known (below.length + 1) frames) frames := by
  have hmoved : f.Continues { f with pc := f.pc + 1 } := ⟨rfl, rfl, rfl⟩
  obtain ⟨began, known, rfl, hf, hbelow⟩ := hs.uncons
  cases hcase with
  | @stay f' _ hadv =>
    simp only [Effect.settle, Option.some.injEq, Prod.mk.injEq] at hsettle
    obtain ⟨-, rfl⟩ := hsettle
    rw [← List.length_cons (a := f'), Invocation.follow_same]
    exact hs.replace (hmoved.trans hadv.toContinues) (hf.advances hl hfetch hadv)
  | @call target types owner method _ hop hsite hfound hstatic hcode henough =>
    have hspends := Frame.spends_dropped { f with pc := f.pc + 1 } method.argumentCount
    have hcaller := (hs.replace (hmoved.trans hspends.continues) (hf.advances hl hfetch hspends.advances)).mono
      (Loader.extends_findMethod files loader target)
    by_cases hlimit : limit ≤ below.length + 1
    · simp only [Effect.settle, if_pos hlimit, Option.some.injEq, Prod.mk.injEq] at hsettle
      obtain ⟨-, rfl⟩ := hsettle
      rw [← List.length_cons, Invocation.follow_same]
      exact hcaller
    · simp only [Effect.settle, if_neg hlimit, Option.some.injEq, Prod.mk.injEq] at hsettle
      obtain ⟨-, rfl⟩ := hsettle
      rw [← List.length_cons, Invocation.follow_push]
      refine .cons (Invocation.runs_self ?_ ?_) (fun _ => ⟨_, rfl, ?_⟩) hcaller
      · rw [Frame.size_ofCall, Frame.length_operands henough]
        rfl
      · exact Outcome.proper_callee hl hsite hfound hstatic hcode _
      · exact Frame.waits_of_fetch? hf hfetch hop (hmoved.trans hspends.continues) hspends.pc
  | leave hop =>
    simp only [Effect.settle, Option.some.injEq, Prod.mk.injEq] at hsettle
    obtain ⟨-, rfl⟩ := hsettle
    rw [Invocation.follow_pop]
    exact hbelow
  | @give v _ hgives =>
    cases below with
    | nil =>
      simp only [Effect.settle, Option.some.injEq, Prod.mk.injEq] at hsettle
      obtain ⟨-, rfl⟩ := hsettle
      rw [Invocation.follow_pop]
      exact hbelow
    | cons caller rest =>
      simp only [Effect.settle, Option.some.injEq, Prod.mk.injEq] at hsettle
      obtain ⟨-, rfl⟩ := hsettle
      obtain ⟨_, _, _, hcaller, _⟩ := hbelow.uncons
      rw [List.length_cons, ← List.length_cons (a := caller.pushed v), Invocation.follow_pop]
      exact hbelow.replace (caller.continues_pushed v) (hcaller.pushed v)
  | @fail e f' later _ hspends _ hasked =>
    simp only [Effect.settle, Option.some.injEq, Prod.mk.injEq] at hsettle
    obtain ⟨-, rfl⟩ := hsettle
    rw [← List.length_cons, Invocation.follow_same]
    exact (hs.replace (hmoved.trans hspends.continues) (hf.advances hl hfetch hspends.advances)).mono hasked.extends
  | hang => simp [Effect.settle] at hsettle

end

/-! ## Entering a program -/

/-- The parameter of `main` is no 64-bit value. -/
theorem Class.narrow_entryDescriptor :
    ∃ type, MethodType.ofDescriptor? entryDescriptor = some type ∧ ∀ t ∈ type.parameters, t.isWide = false :=
  ⟨⟨[.array .reference], none⟩, by decide +kernel, by decide⟩

/-- A program starts in a method without 64-bit parameters. -/
theorem Class.narrow_of_entryPoint? {c : Class} {order : MethodOrder} (hc : c.Declared) {method : Method}
    (h : c.entryPoint? order = some method) : ∀ type ∈ method.type.parameters, type.isWide = false := by
  have htyped := hc.typed (mem_of_entryPoint? h)
  rcases usual_or_mayStart h with hmethod | ⟨-, hnone⟩
  · obtain ⟨type, htype, hnarrow⟩ := narrow_entryDescriptor
    rw [Method.Typed, (mem_of_method? hmethod).2.2, htype] at htyped
    cases htyped
    exact hnarrow
  · simp only [mayStart, Method.argumentCount, Bool.and_eq_true, beq_iff_eq, List.length_eq_zero_iff] at hnone
    rw [hnone.2]
    simp

/-- The frame where a program starts. -/
theorem Class.proper_entry {loader : Loader} (hl : loader.Used) {c : Class} {order : MethodOrder} {name : String}
    (hcached : loader.cached? name = some c) {f : Frame} (h : c.entry order = .ok f) :
    f.Proper loader ∧ f.locals.size = Origin.entry.slots f.method := by
  obtain ⟨hname, hdeclared⟩ := hl.sound _ _ hcached
  obtain ⟨method, code, hentry, hstatic, hcode, rfl⟩ := entry_eq_ok h
  have hmem := mem_of_entryPoint? hentry
  refine ⟨⟨hstatic, hdeclared.method?_of_mem hmem, narrow_of_entryPoint? hdeclared hentry, ?_,
    code, hcode, Nat.zero_le _⟩, ?_⟩
  · rw [← hname] at hcached
    exact hcached
  · rw [Frame.size_ofCall, List.length_nil, Nat.max_zero]
    rfl

/-! ## Machines -/

namespace Machine

/-- A machine without frames whose loader started without classes. -/
structure Fresh (m : Machine) : Prop where
  frames : m.calls.frames = []
  used : m.loader.Used

/-- A machine with the settings of `m₀` whose frames are later states of the `known` invocations. -/
structure Sound (m₀ : Machine) (known : List Invocation) (m : Machine) : Prop where
  natives : m.natives = m₀.natives
  limit : m.calls.limit = m₀.calls.limit
  depth : m.calls.depth ≤ m.calls.limit
  used : m.loader.Used
  stacked : Stacked m.loader known m.calls.frames

section
variable {m₀ m : Machine} {known : List Invocation} {files : FileSystem}

theorem Fresh.sound (h : m₀.Fresh) : Sound m₀ [] m₀ where
  natives := rfl
  limit := rfl
  depth := by simp [CallStack.depth, h.frames]
  used := h.used
  stacked := by
    rw [h.frames]
    exact .nil

theorem length_of_settle {effect : Effect} {limit : Nat} {below frames : List Frame} {fault : Option Error}
    (h : effect.settle limit below = some (fault, frames)) (hbelow : below.length + 1 ≤ limit) :
    frames.length ≤ limit := by
  cases effect with
  | stay f | fail e f =>
    simp only [Effect.settle, Option.some.injEq, Prod.mk.injEq] at h
    obtain ⟨-, rfl⟩ := h
    exact hbelow
  | call caller callee =>
    by_cases hlimit : limit ≤ below.length + 1
    · simp only [Effect.settle, if_pos hlimit, Option.some.injEq, Prod.mk.injEq] at h
      obtain ⟨-, rfl⟩ := h
      exact hbelow
    · simp only [Effect.settle, if_neg hlimit, Option.some.injEq, Prod.mk.injEq] at h
      obtain ⟨-, rfl⟩ := h
      exact Nat.lt_of_not_le hlimit
  | leave =>
    simp only [Effect.settle, Option.some.injEq, Prod.mk.injEq] at h
    obtain ⟨-, rfl⟩ := h
    omega
  | give v =>
    cases below with
    | nil =>
      simp only [Effect.settle, Option.some.injEq, Prod.mk.injEq] at h
      obtain ⟨-, rfl⟩ := h
      exact Nat.zero_le limit
    | cons caller rest =>
      simp only [Effect.settle, Option.some.injEq, Prod.mk.injEq] at h
      obtain ⟨-, rfl⟩ := h
      exact Nat.le_of_succ_le hbelow
  | hang => cases h

/-- **One step.** -/
theorem Sound.next (h : Sound m₀ known m) (files : FileSystem) :
    Sound m₀ (Invocation.follow .call known m.calls.depth (m.next files).calls.frames) (m.next files) := by
  have hsame : Sound m₀ (Invocation.follow .call known m.calls.depth m.calls.frames) m := by
    rw [CallStack.depth, Invocation.follow_same]
    exact h
  have hstepped := next_stepped m files
  generalize m.next files = after at hstepped
  cases hstepped with
  | nothing => exact hsame
  | @carried f below inst o _ _ _ _ hm hfetch ho hsettle =>
    have hdepth := h.depth
    have hstacked := h.stacked
    have hcase : Outcome.Case files m.natives inst { f with pc := f.pc + 1 } m.loader o :=
      ho ▸ outcome_case files m.natives inst f.pc _ m.loader m.streams
    rw [CallStack.depth, hm] at hdepth ⊢
    rw [hm] at hstacked
    exact ⟨h.natives, h.limit, length_of_settle hsettle hdepth, hcase.asked.used h.used,
      stacked_of_case h.used hstacked hfetch hcase hsettle⟩

/-! ### Requests -/

/-- What is logged makes no difference. -/
theorem Sound.logged (h : Sound m₀ known m) (log : List Event) : Sound m₀ known { m with log } :=
  ⟨h.natives, h.limit, h.depth, h.used, h.stacked⟩

theorem Sound.run (h : Sound m₀ known m) (files : FileSystem) (limit : Nat) :
    Sound m₀ (invocationsAfterRun files limit known m) (m.leftBy (run files limit)) := by
  induction limit generalizing m known with
  | zero => exact h
  | succ limit ih =>
    have hnext := h.next files
    unfold Machine.next at hnext
    unfold leftBy invocationsAfterRun Machine.next
    cases hstep : step files m with
    | error stop after =>
      rw [hstep] at hnext
      rw [run_of_error limit hstep]
      exact hnext
    | ok more after =>
      rw [hstep] at hnext
      cases more with
      | true =>
        rw [run_of_more limit hstep]
        exact ih hnext
      | false =>
        obtain ⟨log, hrun⟩ := run_of_end limit hstep
        rw [hrun]
        exact hnext.logged log

theorem Sound.enter (h : Sound m₀ known m) (files : FileSystem) (className : String) :
    Sound m₀ (Invocation.follow .entry known m.calls.depth (m.leftBy (enter files className)).calls.frames)
      (m.leftBy (enter files className)) := by
  obtain ⟨log, henter⟩ := enter_eq files className m
  have hextends : m.loader.Extends (m.loader.resolve files className).loader := Loader.extends_search files m.loader _
  have hstacked := h.stacked.mono hextends
  have hused := h.used.resolve files className
  unfold leftBy
  rw [henter]
  cases hentered : m.entered files className with
  | error e =>
    rw [← Invocation.follow_same .entry known m.calls.frames] at hstacked
    exact ⟨h.natives, h.limit, h.depth, hused, hstacked⟩
  | ok frames =>
    obtain ⟨c, f, hc, hf, hdepth, rfl⟩ := entered_ok hentered
    obtain ⟨hproper, hslots⟩ := Class.proper_entry hused (Loader.cached_of_resolve hc) hf
    have hpushed := Stacked.cons (Invocation.runs_self hslots hproper) (fun horigin => by cases horigin) hstacked
    rw [← Invocation.follow_push .entry known f m.calls.frames] at hpushed
    exact ⟨h.natives, h.limit, hdepth, hused, hpushed⟩

theorem Sound.cleared (h : Sound m₀ known m) (log : List Event) : Sound m₀ [] (m.put m.loader m.streams [] log) :=
  ⟨h.natives, h.limit, Nat.zero_le _, h.used, .nil⟩

theorem Sound.prepare (h : Sound m₀ known m) (files : FileSystem) (className : String) :
    Sound m₀ (Invocation.follow .entry [] 0 (m.leftBy (prepare files className)).calls.frames)
      (m.leftBy (prepare files className)) := by
  obtain ⟨log, hprepare⟩ := prepare_eq files className m
  have hentered := (h.cleared log).enter files className
  unfold leftBy at hentered ⊢
  rw [hprepare]
  exact hentered

/-- **One request.** -/
theorem Sound.after (h : Sound m₀ known m) (files : FileSystem) (request : Request) :
    Sound m₀ (invocationsAfter known m files request) (m.after files request) := by
  cases request with
  | enter className => exact h.enter files className
  | step =>
    rw [after_step]
    exact h.next files
  | run limit => exact h.run files limit
  | start className limit =>
    have hentered := h.prepare files className
    rw [after_start, invocationsAfter]
    unfold leftBy at hentered ⊢
    cases hprepare : Machine.prepare files className m with
    | error stop entered =>
      rw [hprepare] at hentered
      exact hentered
    | ok _ entered =>
      rw [hprepare] at hentered
      exact hentered.run files limit

theorem Sound.afterAll (h : Sound m₀ known m) (history : History) :
    Sound m₀ (invocationsAfterAll known m history) (m.afterAll history) := by
  induction history generalizing m known with
  | nil => exact h
  | cons asked rest ih => exact ih (h.after asked.1 asked.2)

/-! ### One program at a time -/

theorem length_entered_le (hm : m.calls.frames = []) (files : FileSystem) (className : String) :
    (m.leftBy (Machine.enter files className)).calls.frames.length ≤ 1 := by
  obtain ⟨log, henter⟩ := enter_eq files className m
  unfold leftBy
  rw [henter]
  cases hentered : m.entered files className with
  | error e =>
    show m.calls.frames.length ≤ 1
    rw [hm]
    exact Nat.zero_le 1
  | ok frames =>
    obtain ⟨c, f, -, -, -, rfl⟩ := entered_ok hentered
    show (f :: m.calls.frames).length ≤ 1
    rw [hm]
    exact Nat.le_refl 1

theorem oneProgram_run (hone : Invocation.OneProgram known) (files : FileSystem) (limit : Nat) (m : Machine) :
    Invocation.OneProgram (invocationsAfterRun files limit known m) := by
  induction limit generalizing m known with
  | zero => exact hone
  | succ limit ih =>
    have hreached := hone.follow_call m.calls.depth (m.next files).calls.frames
    unfold invocationsAfterRun
    simp only
    split
    · exact ih hreached _
    · exact hreached

theorem Sound.oneProgram (h : Sound m₀ known m) (hone : Invocation.OneProgram known) (files : FileSystem)
    {request : Request} (hidle : request.isEnter = true → m.calls.frames = []) :
    Invocation.OneProgram (invocationsAfter known m files request) := by
  cases request with
  | enter className =>
    have hlength := length_entered_le (hidle rfl) files className
    have hknown := h.stacked.length_eq
    rw [hidle rfl, List.length_nil, List.length_eq_zero_iff] at hknown
    obtain rfl := hknown
    exact Invocation.oneProgram_entry m.calls.depth hlength
  | step => exact hone.follow_call _ _
  | run limit => exact oneProgram_run hone files limit m
  | start className limit =>
    obtain ⟨log, hprepare⟩ := prepare_eq files className m
    have hlength : (m.leftBy (Machine.prepare files className)).calls.frames.length ≤ 1 := by
      have hempty : (m.put m.loader m.streams [] log).calls.frames = [] := rfl
      have hcleared := length_entered_le hempty files className
      unfold leftBy at hcleared ⊢
      rw [hprepare]
      exact hcleared
    have hentered := Invocation.oneProgram_entry 0 hlength
    unfold invocationsAfter
    simp only
    split
    · exact oneProgram_run hentered files limit _
    · exact hentered

theorem Sound.oneProgram_afterAll (h : Sound m₀ known m) (hone : Invocation.OneProgram known) {history : History}
    (hidle : m.EntersWhenIdle history) : Invocation.OneProgram (invocationsAfterAll known m history) := by
  induction history generalizing m known with
  | nil => exact hone
  | cons asked rest ih => exact ih (h.after asked.1 asked.2) (h.oneProgram hone asked.1 hidle.1) hidle.2

/-- **Reachable machines.** After any history, the limit to the number of frames is what it was and is
kept; each frame is proper, and a later state of the invocation that was pushed, with as many locals
as its origin calls for; and if programs are entered one at a time, each frame below the top waits for
the one above it. -/
theorem reachable_sound (h : m₀.Fresh) (history : History) :
    (m₀.afterAll history).calls.limit = m₀.calls.limit ∧
      (m₀.afterAll history).calls.depth ≤ m₀.calls.limit ∧
      List.Forall₂ (Invocation.Runs (m₀.afterAll history).loader) (invocationsAfterAll [] m₀ history)
        (m₀.afterAll history).calls.frames ∧
      (m₀.EntersWhenIdle history → ∀ f ∈ (m₀.afterAll history).calls.frames.tail, f.Waits) := by
  have hsound := h.sound.afterAll history
  refine ⟨hsound.limit, hsound.limit ▸ hsound.depth, hsound.stacked.forall₂, fun hidle => ?_⟩
  exact hsound.stacked.waits (h.sound.oneProgram_afterAll .nil hidle)

end

end Machine

/-! ### A program that has called a method -/

namespace Sample

/-- The file of a class `B` whose `main` calls `B.f()V`, which returns. -/
def callerFile : Bytes := [
  0xca, 0xfe, 0xba, 0xbe, 0x00, 0x00, 0x00, 0x34,
  -- the constants: the names, the class 2, and the method 9 of it
  0x00, 0x0a, 0x01, 0x00, 0x01, 0x42, 0x07, 0x00, 0x01, 0x01, 0x00, 0x04, 0x6d, 0x61, 0x69, 0x6e,
  0x01, 0x00, 0x16, 0x28, 0x5b, 0x4c, 0x6a, 0x61, 0x76, 0x61, 0x2f, 0x6c, 0x61, 0x6e, 0x67, 0x2f,
  0x53, 0x74, 0x72, 0x69, 0x6e, 0x67, 0x3b, 0x29, 0x56, 0x01, 0x00, 0x04, 0x43, 0x6f, 0x64, 0x65,
  0x01, 0x00, 0x01, 0x66, 0x01, 0x00, 0x03, 0x28, 0x29, 0x56, 0x0c, 0x00, 0x06, 0x00, 0x07, 0x0a,
  0x00, 0x02, 0x00, 0x08,
  -- this class, without a superclass
  0x00, 0x21, 0x00, 0x02, 0x00, 0x00, 0x00, 0x00, 0x00, 0x00, 0x00, 0x02,
  -- `main`
  0x00, 0x09, 0x00, 0x03, 0x00, 0x04, 0x00, 0x01, 0x00, 0x05, 0x00, 0x00, 0x00, 0x10, 0x00, 0x00,
  0x00, 0x01, 0x00, 0x00, 0x00, 0x04, 0xb8, 0x00, 0x09, 0xb1, 0x00, 0x00, 0x00, 0x00,
  -- `f`
  0x00, 0x09, 0x00, 0x06, 0x00, 0x07, 0x00, 0x01, 0x00, 0x05, 0x00, 0x00, 0x00, 0x0d, 0x00, 0x00,
  0x00, 0x00, 0x00, 0x00, 0x00, 0x01, 0xb1, 0x00, 0x00, 0x00, 0x00,
  0x00, 0x00]

/-- There is no other file. -/
def callerFiles : FileSystem := .ofRecord [("r/B.class", .ok callerFile)]

/-- Nothing has happened yet. -/
def idle : Machine := { loader := { roots := ["r"] } }

/-- The program is entered and makes its call. -/
def firstCall : History := [(callerFiles, .enter "B"), (callerFiles, .step)]

end Sample

/-- Two frames, the lower of which waits for the upper one. -/
theorem reachable_sound_firstCall :
    (Sample.idle.afterAll Sample.firstCall).calls.depth = 2 ∧
      List.Forall₂ (Invocation.Runs (Sample.idle.afterAll Sample.firstCall).loader)
        (Machine.invocationsAfterAll [] Sample.idle Sample.firstCall)
        (Sample.idle.afterAll Sample.firstCall).calls.frames ∧
      ∀ f ∈ (Sample.idle.afterAll Sample.firstCall).calls.frames.tail, f.Waits := by
  have hfresh : Sample.idle.Fresh := ⟨rfl, .fresh _⟩
  have hidle : Sample.idle.EntersWhenIdle Sample.firstCall := ⟨fun _ => rfl, nofun, trivial⟩
  obtain ⟨-, -, hruns, hwaits⟩ := Machine.reachable_sound hfresh Sample.firstCall
  exact ⟨by decide +kernel, hruns, hwaits hidle⟩

end Jvm
