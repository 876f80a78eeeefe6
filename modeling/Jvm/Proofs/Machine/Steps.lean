import Jvm.Proofs.Machine.Arithmetic
import Jvm.Proofs.Machine.Requests
import Jvm.Proofs.Machine.StaticCall

/-!
# Steps one after the other

`Leads` counts steps, all of which succeed; a run of as many steps takes them and goes on from there
(`Leads.run_eq`). To follow a program, the count and the log do not matter: `Reaches` leads from frames to
frames in a machine that is otherwise always the same, and its rules say what the instructions make of the
running frame. Rules are put together with `Reaches.trans`, so a block of code has a rule like an
instruction.
-/

namespace Jvm

theorem Frame.fetch?_of_code {f : Frame} {code : Code} {inst : Instruction Nat} (hcode : f.method.code = some code)
    (hinst : code[f.pc]? = some inst) : f.fetch? = .ok inst := by
  simp only [fetch?, hcode, hinst]

/-- One value is taken off the stack for a call. -/
theorem Frame.operands_one {f : Frame} {v : Value} {rest : List Value} (h : f.stack = v :: rest) :
    f.operands 1 = [v] ∧ f.dropped 1 = { f with stack := rest } := by
  rw [operands, dropped, h]
  exact ⟨rfl, rfl⟩

/-- A class that is loaded and declares the method itself gives it as it is. -/
theorem Loader.findMethod_of_cached {files : FileSystem} {loader : Loader} {target : MemberRef} {c : Class} {method : Method}
    (hcached : loader.cached? (internalName target.owner) = some c)
    (hfound : c.method? target.name target.descriptor = some method) :
    loader.findMethod files target = { result := .ok (c, method), loader } := by
  have hresolve : loader.resolve files target.owner = { result := .ok c, loader } := by
    rw [resolve, search_of_cached hcached]
    rfl
  simp only [findMethod, hresolve, climbLimit, climb, hfound, List.append_nil]

namespace Machine

/-- So many steps, all of which succeed, lead from one machine to the other. -/
inductive Leads (files : FileSystem) : Nat → Machine → Machine → Prop
  | here (m : Machine) : Leads files 0 m m
  | step {k : Nat} {m next m' : Machine} : Machine.step files m = .ok true next → Leads files k next m' →
      Leads files (k + 1) m m'

/-- The machine with other frames, another count and another log. -/
def holding (m : Machine) (frames : List Frame) (executed : Nat) (log : List Event) : Machine :=
  { m.put m.loader m.streams frames log with executed }

/-- In a machine like `m`, so many steps lead from some frames to others. -/
def Reaches (files : FileSystem) (m : Machine) (k : Nat) (frames frames' : List Frame) : Prop :=
  ∀ executed log, ∃ log', Leads files k (m.holding frames executed log) (m.holding frames' (executed + k) log')

/-- In a machine like `m`, so many steps are taken from these frames, and the next one fails. -/
def Breaks (files : FileSystem) (m : Machine) (k : Nat) (frames : List Frame) (error : Error) (frames' : List Frame) :
    Prop :=
  ∀ executed log, ∃ last log', Leads files k (m.holding frames executed log) last ∧
    Machine.step files last = .error (.failed error) (m.holding frames' (executed + k) log')

section
variable {files : FileSystem} {m m' m'' : Machine} {k l : Nat}

/-! ## Counting steps -/

theorem Leads.one (h : Machine.step files m = .ok true m') : Leads files 1 m m' := .step h (.here m')

theorem Leads.trans (h : Leads files k m m') (h' : Leads files l m' m'') : Leads files (k + l) m m'' := by
  induction h with
  | here => rwa [Nat.zero_add]
  | step hstep _ ih =>
    rw [Nat.succ_add]
    exact .step hstep (ih h')

/-- A run takes the steps and goes on. -/
theorem Leads.run_eq (h : Leads files k m m') (limit : Nat) : run files (k + limit) m = run files limit m' := by
  induction h with
  | here => rw [Nat.zero_add]
  | step hstep _ ih => rw [Nat.succ_add, run_of_more _ hstep, ih]

/-- A run of enough steps comes to its end once there are no frames. -/
theorem Leads.run_of_empty (h : Leads files k m m') (hempty : m'.calls.frames = []) {limit : Nat} (hlimit : k < limit) :
    ∃ log, run files limit m = .ok () { m' with log } := by
  obtain ⟨more, rfl⟩ := Nat.exists_eq_add_of_lt hlimit
  rw [Nat.add_assoc, h.run_eq]
  exact run_of_end more (stepWith_of_empty fetch files hempty)

/-- A run of enough steps fails as the last one does. -/
theorem Leads.run_of_error (h : Leads files k m m') {stop : Stop} (hstop : Machine.step files m' = .error stop m'')
    {limit : Nat} (hlimit : k < limit) : run files limit m = .error stop m'' := by
  obtain ⟨more, rfl⟩ := Nat.exists_eq_add_of_lt hlimit
  rw [Nat.add_assoc, h.run_eq]
  exact Machine.run_of_error more hstop

/-! ## From frames to frames -/

section
variable {frames frames' frames'' : List Frame} {error : Error}

theorem Reaches.here : Reaches files m 0 frames frames := fun _ log => ⟨log, .here _⟩

theorem Reaches.trans (h : Reaches files m k frames frames') (h' : Reaches files m l frames' frames'') :
    Reaches files m (k + l) frames frames'' := by
  intro executed log
  obtain ⟨log', hleads⟩ := h executed log
  obtain ⟨log'', hleads'⟩ := h' (executed + k) log'
  refine ⟨log'', ?_⟩
  rw [← Nat.add_assoc]
  exact hleads.trans hleads'

theorem Reaches.breaks (h : Reaches files m k frames frames') (h' : Breaks files m l frames' error frames'') :
    Breaks files m (k + l) frames error frames'' := by
  intro executed log
  obtain ⟨log', hleads⟩ := h executed log
  obtain ⟨last, log'', hleads', hstep⟩ := h' (executed + k) log'
  refine ⟨last, log'', hleads.trans hleads', ?_⟩
  rw [← Nat.add_assoc]
  exact hstep

theorem reaches_of_stepsTo (h : ∀ executed log, (m.holding frames executed log).StepsTo files frames') :
    Reaches files m 1 frames frames' := by
  intro executed log
  obtain ⟨log', hstep⟩ := h executed log
  exact ⟨log', .one hstep⟩

end

/-! ## Instructions -/

section
variable {f f' caller : Frame} {below : List Frame} {inst : Instruction Nat} {op : FrameOperation}

/-- An instruction that stays within the running frame. -/
theorem reaches_within (hfetch : f.fetch? = .ok inst) (hop : inst.opcode.operation = .within op)
    (hperform : Frame.perform op inst f.moved = .ok () f') : Reaches files m 1 (f :: below) (f' :: below) :=
  reaches_of_stepsTo fun _ _ => stepsTo_of_perform ⟨rfl, hfetch⟩ hop hperform

theorem reaches_storeInt {index : UInt16} {i : Int32} {rest : List Value} {locals : Array Value}
    (hfetch : f.fetch? = .ok inst) (hop : inst.opcode.operation = .within .storeInt) (hoperand : inst.operand = .slot index)
    (hstack : f.stack = .int i :: rest) (hslot : index.toNat < f.locals.size)
    (hlocals : f.locals.setIfInBounds index.toNat (.int i) = locals) :
    Reaches files m 1 (f :: below) ({ f.moved with stack := rest, locals } :: below) := by
  have hstore := Frame.perform_storeInt (f := f.moved) hoperand hstack hslot
  rw [show f.moved.locals.setIfInBounds index.toNat (.int i) = locals from hlocals] at hstore
  exact reaches_within hfetch hop hstore

theorem reaches_of_branches {operands rest : List Value} {taken : Prop} {target : Nat}
    (h : inst.opcode.Branches operands taken) (hfetch : f.fetch? = .ok inst) (hoperand : inst.operand = .branch target)
    (hstack : f.stack = operands ++ rest) :
    (taken → Reaches files m 1 (f :: below) ({ f with pc := target, stack := rest } :: below)) ∧
      (¬taken → Reaches files m 1 (f :: below) ({ f.moved with stack := rest } :: below)) := by
  have hbranches (executed : Nat) (log : List Event) :=
    h files (m.holding (f :: below) executed log) f below inst rest target ⟨rfl, hfetch⟩ rfl hoperand hstack
  exact ⟨fun htaken => reaches_of_stepsTo fun executed log => (hbranches executed log).1 htaken,
    fun htaken => reaches_of_stepsTo fun executed log => (hbranches executed log).2 htaken⟩

theorem stepsTo_of_outcome {e : Effect} {frames : List Frame} (h : m.At f below inst)
    (houtcome : outcome files m.natives inst f.pc f.moved m.loader m.streams = ⟨e, m.loader, m.streams⟩)
    (hsettle : e.settle m.calls.limit below = some (none, frames)) : m.StepsTo files frames := by
  obtain ⟨log, hstep⟩ := step_eq h.frames h.fetch files
  refine ⟨log, hstep.trans ?_⟩
  show m.conclude below (outcome files m.natives inst f.pc f.moved m.loader m.streams) log = _
  simp only [houtcome, conclude, hsettle]

/-- An instruction that changes neither the loader nor the streams. -/
theorem reaches_of_outcome {e : Effect} {frames : List Frame} (hfetch : f.fetch? = .ok inst)
    (houtcome : outcome files m.natives inst f.pc f.moved m.loader m.streams = ⟨e, m.loader, m.streams⟩)
    (hsettle : e.settle m.calls.limit below = some (none, frames)) : Reaches files m 1 (f :: below) frames :=
  reaches_of_stepsTo fun _ _ => stepsTo_of_outcome ⟨rfl, hfetch⟩ houtcome hsettle

theorem reaches_returnInt {i : Int32} {rest : List Value} (hfetch : f.fetch? = .ok inst)
    (hop : inst.opcode.operation = .returnInt) (hstack : f.stack = .int i :: rest) :
    Reaches files m 1 (f :: caller :: below) (caller.pushed (.int i) :: below) := by
  have hstack' : f.moved.stack = .int i :: rest := hstack
  refine reaches_of_outcome (e := .give (.int i)) hfetch ?_ rfl
  rw [outcome, hop]
  simp only [Outcome.within, Frame.popInt_of_stack hstack']

theorem reaches_returnVoid (hfetch : f.fetch? = .ok inst) (hop : inst.opcode.operation = .returnVoid) :
    Reaches files m 1 (f :: below) below := by
  refine reaches_of_outcome (e := .leave) hfetch ?_ rfl
  rw [outcome, hop]

theorem reaches_getStatic {v : Value} (hfetch : f.fetch? = .ok inst) (hop : inst.opcode.operation = .getStatic)
    (hfield : f.moved.staticField m.natives inst = .ok v) :
    Reaches files m 1 (f :: below) (f.moved.pushed v :: below) := by
  refine reaches_of_outcome (e := .stay (f.moved.pushed v)) hfetch ?_ rfl
  rw [outcome, hop]
  simp only [hfield]

end

/-! ## Calls within a loaded class -/

/-- The running frame is about to call a static method that it takes no file to find. -/
structure AtLoadedCall (m : Machine) (f : Frame) (index : UInt16) (target : MemberRef) (types : List FieldType)
    (owner : Class) (method : Method) : Prop where
  next : ∃ inst, f.fetch? = .ok inst ∧ inst.opcode = .invokestatic ∧ inst.operand = .index index
  bytecode : ∀ target types, f.Names index target types →
    m.natives.method? .static target.owner target.name types.length = none
  names : f.Names index target types
  cached : m.loader.cached? (internalName target.owner) = some owner
  found : owner.method? target.name target.descriptor = some method
  static : method.isStatic = true
  code : method.code.isSome = true
  count : method.argumentCount = types.length
  operands : types.length ≤ f.stack.length

section
variable {f : Frame} {below : List Frame} {index : UInt16} {target : MemberRef} {types : List FieldType} {owner : Class}
  {method : Method}

theorem AtLoadedCall.findMethod_eq (h : AtLoadedCall m f index target types owner method) (files : FileSystem) :
    m.loader.findMethod files target = { result := .ok (owner, method), loader := m.loader } :=
  Loader.findMethod_of_cached h.cached h.found

theorem AtLoadedCall.resolves (h : AtLoadedCall m f index target types owner method) (files : FileSystem) :
    m.loader.Resolves files target (.ok (owner, method)) :=
  Loader.findMethod_eq_ok_iff.1 (congrArg Loading.result (h.findMethod_eq files))

theorem AtLoadedCall.atStaticCall (h : AtLoadedCall m f index target types owner method) (below : List Frame)
    (executed : Nat) (log : List Event) : (m.holding (f :: below) executed log).AtStaticCall f below index :=
  ⟨rfl, h.next, h.bytecode⟩

theorem AtLoadedCall.reaches (h : AtLoadedCall m f index target types owner method)
    (hroom : below.length + 1 < m.calls.limit) : Reaches files m 1 (f :: below)
      (.ofCall owner method (f.operands types.length) :: f.moved.dropped types.length :: below) := by
  refine reaches_of_stepsTo fun executed log => ?_
  obtain ⟨log', hstep⟩ := (h.atStaticCall below executed log).step_of_count h.count
    ⟨h.names, h.resolves files, h.static, h.code, h.operands, hroom⟩
  rw [show (m.holding (f :: below) executed log).loader.findMethod files target = _ from h.findMethod_eq files] at hstep
  exact ⟨log', hstep⟩

theorem AtLoadedCall.breaks (h : AtLoadedCall m f index target types owner method)
    (hfull : m.calls.limit ≤ below.length + 1) :
    Breaks files m 0 (f :: below) (.stackOverflow m.calls.limit) (f.moved.dropped types.length :: below) := by
  intro executed log
  obtain ⟨log', hstep⟩ := (h.atStaticCall below executed log).step_of_full h.count h.names (h.resolves files) h.static
    h.code h.operands hfull
  rw [show (m.holding (f :: below) executed log).loader.findMethod files target = _ from h.findMethod_eq files] at hstep
  exact ⟨_, log', .here _, hstep⟩

end

end

end Machine

end Jvm
