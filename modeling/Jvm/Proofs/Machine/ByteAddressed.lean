import Jvm.Proofs.Code.Tiling
import Jvm.Proofs.Loader.Decoded
import Jvm.Proofs.Machine.Requests
import Jvm.Proofs.Machine.Twin

/-!
# A machine that counts bytes

The machine keeps an index into the decoded instructions of a method. Here stands one that decodes
nothing in advance: its counter is a byte offset, each step reads the instruction that the format
finds there, the next one starts where this one ends, and a branch goes as many bytes on or back as
its displacement says. In everything else it is the same machine.

`Lockstep` relates the two: their frames are twins, and a counter of the one is the offset of the
instruction that a counter of the other is the index of. A step keeps it (`byteStep_mirrors`).

Main theorem `byte_refinement`: the machines stay in lockstep for as long as neither fails, and fail
together.
-/

namespace Jvm

/-! ## The byte machine -/

/-- A code array for each method: one that the method was decoded from, if there is such a one. -/
structure Sources where
  bytes : Class → Method → Bytes
  decodes : ∀ owner method code, method.code = some code → method.Decoded →
    Code.decode (bytes owner method) = .ok code

/-- Any code array that decodes to the code of a method can be the one taken for it. -/
theorem Sources.exists_bytes (owner : Class) {method : Method} {code : Code} {bytes : Bytes}
    (hcode : method.code = some code) (h : Code.decode bytes = .ok code) :
    ∃ sources : Sources, sources.bytes owner method = bytes := by
  have hany : ∀ (c : Class) (m : Method), ∃ taken : Bytes, (c = owner ∧ m = method → taken = bytes) ∧
      ∀ code', m.code = some code' → m.Decoded → Code.decode taken = .ok code' := by
    intro c m
    by_cases hsame : c = owner ∧ m = method
    · obtain ⟨rfl, rfl⟩ := hsame
      refine ⟨bytes, fun _ => rfl, fun code' hcode' _ => ?_⟩
      rw [h, Option.some.inj (hcode.symm.trans hcode')]
    by_cases hdecoded : ∃ code', m.code = some code' ∧ m.Decoded
    · obtain ⟨code', hcode', hm⟩ := hdecoded
      obtain ⟨taken, htaken⟩ := hm code' hcode'
      refine ⟨taken, fun h => absurd h hsame, fun other hother _ => ?_⟩
      rw [htaken, Option.some.inj (hcode'.symm.trans hother)]
    · exact ⟨[], fun h => absurd h hsame, fun code' hcode' hm => absurd ⟨code', hcode', hm⟩ hdecoded⟩
  choose source hsource using hany
  exact ⟨⟨source, fun c m => (hsource c m).2⟩, (hsource owner method).1 ⟨rfl, rfl⟩⟩

/-- Where a branch at byte `pc` goes. -/
def branchByte (pc : Nat) (displacement : Int) : Except DecodeError Nat :=
  if 0 ≤ pc + displacement then .ok (pc + displacement).toNat
  else .error (.invalidBranchTarget pc (pc + displacement))

/-- The instruction at byte `pc` of a code array, with the byte where its branch goes, and the byte
where the next instruction starts. -/
def fetchByte (code : Bytes) (pc : Nat) : Except DecodeError (Instruction Nat × Nat) :=
  match Format.instruction? code pc with
  | none => .error (.truncated pc)
  | some e =>
    (e.operand.mapTarget (branchByte pc)).map fun operand => (⟨pc, e.opcode, operand⟩, pc + e.size)

/-- Fetches the next instruction of a frame that counts bytes. -/
def Frame.byteFetch (sources : Sources) : OnFrame (Instruction Nat) := fun frame =>
  let code := sources.bytes frame.owner frame.method
  if frame.method.code.isNone then
    .error (.unsupported (.noCode frame.owner.name frame.method.name)) frame
  else if code.length ≤ frame.pc then
    .error (.invalidFrameAccess (.pastEnd frame.pc frame.owner.name frame.method.name)) frame
  else
    match fetchByte code frame.pc with
    | .error cause => .error (.defect (.invalidCode frame.owner.name frame.method.name cause)) frame
    | .ok (inst, next) => .ok inst { frame with pc := next }

/-- A step of the machine that counts bytes. -/
def Machine.byteStep (sources : Sources) (files : FileSystem) : Exec Bool :=
  stepWith (Frame.byteFetch sources) files

/-! ## Indices and offsets -/

namespace Code

/-- Instruction `i` starts at byte `p`; both may also be just past the end. -/
def At (l : Code) (code : Bytes) (i p : Nat) : Prop :=
  (∃ inst, l[i]? = some inst ∧ inst.offset = p) ∨ i = l.size ∧ p = code.length

section
variable {code : Bytes} {l : Code}

theorem Tiles.at_zero (h : Tiles code l) : At l code 0 0 := by
  rcases Nat.eq_zero_or_pos l.size with hzero | hpos
  · have hempty : l = #[] := Array.eq_empty_of_size_eq_zero hzero
    exact .inr ⟨hzero.symm, by rw [h.empty.1 hempty, List.length_nil]⟩
  · have hget : l[0]? = some l[0] := Array.getElem?_eq_getElem hpos
    exact .inl ⟨l[0], hget, h.start _ hget⟩

/-- The instruction after the one at index `i` starts where that one ends. -/
theorem Tiles.at_next (h : Tiles code l) {i : Nat} {inst : Instruction Nat} (hi : l[i]? = some inst)
    (hdef : Format.defined (code.byteAt inst.offset)) :
    At l code (i + 1) (inst.offset + Format.length code inst.offset) := by
  have hlt := (Array.getElem?_eq_some_iff.1 hi).1
  rcases Nat.lt_or_ge (i + 1) l.size with hin | hout
  · have hget : l[i + 1]? = some l[i + 1] := Array.getElem?_eq_getElem hin
    exact .inl ⟨_, hget, (h.next i inst _ hi hget).2⟩
  · have hlast : l.back? = some inst := by
      rw [Array.back?, show l.size - 1 = i by omega]
      exact hi
    exact .inr ⟨by omega, h.last inst hlast hdef⟩

/-- Every instruction of decoded code is there as a whole. -/
theorem Tiles.fits (h : Tiles code l) {i : Nat} {inst : Instruction Nat} (hi : l[i]? = some inst) :
    inst.offset + Format.length code inst.offset ≤ code.length := by
  by_cases hdef : Format.defined (code.byteAt inst.offset) = true
  · rcases h.at_next hi hdef with ⟨following, hnext, hoffset⟩ | ⟨-, hend⟩
    · have := h.inside following (Array.mem_of_getElem? hnext)
      omega
    · exact Nat.le_of_eq hend
  · rw [Format.length_of_undefined hdef]
    exact h.inside inst (Array.mem_of_getElem? hi)

/-- The byte machine finds the decoded instruction, its branch aimed at the byte where the one that it
is aimed at starts. -/
theorem fetchByte_of_decode (h : decode code = .ok l) {i : Nat} {inst : Instruction Nat}
    (hi : l[i]? = some inst) :
    ∃ inst', fetchByte code inst.offset = .ok (inst', inst.offset + Format.length code inst.offset) ∧
      inst.Twin (At l code) inst' := by
  have hpos := Format.length_pos code inst.offset
  obtain ⟨-, hopcode, hresolves⟩ := format_of_decode h (Array.mem_of_getElem? hi)
  rw [fetchByte, Format.instruction?, if_pos ((tiles_of_decode h).fits hi), ← hopcode]
  simp only [Encoded.size, Nat.sub_add_cancel hpos]
  cases hoperand : Format.operand inst.opcode code inst.offset with
  | branch displacement =>
    rw [hoperand] at hresolves
    obtain ⟨index, target, hindex, hget, htarget⟩ := hresolves
    have hbyte : branchByte inst.offset displacement = .ok target.offset := by
      rw [branchByte, if_pos (by omega), ← htarget, Int.toNat_natCast]
    refine ⟨⟨inst.offset, inst.opcode, .branch target.offset⟩, ?_, ?_⟩
    · simp only [Operand.mapTarget, hbyte]
      rfl
    · exact .branch rfl (Format.mem_branchOpcodes hoperand) hindex rfl (.inl ⟨target, hget, rfl⟩)
  | _ =>
    rw [hoperand] at hresolves
    refine ⟨_, rfl, .same rfl (Eq.symm hresolves) ?_⟩
    rw [hresolves]
    simp

end

end Code

/-! ## Machines in lockstep -/

/-- Counter `i` of a frame is an index and counter `p` the byte that it stands for. -/
def Sources.Corr (sources : Sources) (owner : Class) (method : Method) (i p : Nat) : Prop :=
  ∃ code, method.code = some code ∧ Code.decode (sources.bytes owner method) = .ok code ∧
    code.At (sources.bytes owner method) i p

/-- The frames of the two machines differ only in how they count. -/
def Frame.Aligned (sources : Sources) (f g : Frame) : Prop := f.Twin (sources.Corr f.owner f.method) g

/-- The errors differ at most in how they count. -/
inductive Error.Same : Error → Error → Prop
  | refl (e : Error) : Same e e
  | unsupportedOpcode {code : Code} {bytes : Bytes} {i p : Nat} (opcode : Opcode) (owner method : String) :
      Code.decode bytes = .ok code → code.At bytes i p →
      Same (.unsupportedOpcode opcode owner method i) (.unsupportedOpcode opcode owner method p)
  | pastEnd {code : Code} {bytes : Bytes} {i p : Nat} (owner method : String) :
      Code.decode bytes = .ok code → code.At bytes i p →
      Same (.invalidFrameAccess (.pastEnd i owner method)) (.invalidFrameAccess (.pastEnd p owner method))

namespace Machine

/-- The machines agree in all but the frames, which are related, and in what they logged. -/
structure Alike (rel : Frame → Frame → Prop) (m b : Machine) : Prop where
  loader : b.loader = m.loader
  natives : b.natives = m.natives
  streams : b.streams = m.streams
  executed : b.executed = m.executed
  limit : b.calls.limit = m.calls.limit
  frames : List.Forall₂ rel m.calls.frames b.calls.frames

/-- `b` counts bytes where `m` counts instructions. -/
structure Lockstep (sources : Sources) (m b : Machine) : Prop extends m.Alike (Frame.Aligned sources) b where
  decoded : m.loader.Decoded

/-- The results of the two machines: in lockstep still, or failed for the same reason with the same
frames, counters apart. -/
inductive Mirrors (sources : Sources) {α : Type} :
    EStateM.Result Stop Machine α → EStateM.Result Stop Machine α → Prop
  | ok {m b : Machine} (a : α) : m.Lockstep sources b → Mirrors sources (.ok a m) (.ok a b)
  | failed {m b : Machine} {e e' : Error} : e.Same e' → m.Alike (Frame.Twin fun _ _ => True) b →
      Mirrors sources (.error (.failed e) m) (.error (.failed e') b)
  | unfinished {m b : Machine} : m.Lockstep sources b → Mirrors sources (.error .unfinished m) (.error .unfinished b)

end Machine

/-! ## What a call finds -/

/-- A callee starts at the first instruction of decoded code. -/
def Outcome.Decoded (o : Outcome) : Prop :=
  o.loader.Decoded ∧ ∀ caller callee, o.effect = .call caller callee →
    callee.pc = 0 ∧ callee.method.Decoded ∧ ∃ code, callee.method.code = some code

theorem Outcome.native_decoded {loader : Loader} (hl : loader.Decoded) (action : NativeAction) (call : NativeCall)
    (f : Frame) (streams : Streams) : (native action call f loader streams).Decoded := by
  unfold native
  split <;> exact ⟨hl, by simp⟩

theorem Outcome.bytecode_decoded {loader : Loader} (hl : loader.Decoded) (files : FileSystem) (target : MemberRef)
    (f : Frame) (streams : Streams) : (bytecode files target f loader streams).Decoded := by
  obtain ⟨hloader, hfound⟩ := Loader.decoded_findMethod files hl target
  unfold bytecode
  simp only
  split
  · exact ⟨hloader, by simp⟩
  · exact ⟨hloader, by simp⟩
  · rename_i owner method hmethod
    split
    · exact ⟨hloader, by simp⟩
    · split
      · exact ⟨hloader, by simp⟩
      · rename_i hcode _
        refine ⟨hloader, ?_⟩
        rintro caller callee ⟨⟩
        simp only [Bool.or_eq_true, not_or, Bool.not_eq_true, Option.isNone_eq_false_iff,
          Option.isSome_iff_exists] at hcode
        exact ⟨rfl, hfound _ hmethod, hcode.2⟩

theorem outcome_decoded {loader : Loader} (hl : loader.Decoded) (files : FileSystem) (natives : NativeTable)
    (inst : Instruction Nat) (pc : Nat) (f : Frame) (streams : Streams) :
    (outcome files natives inst pc f loader streams).Decoded := by
  unfold outcome
  split
  · refine ⟨hl, ?_⟩
    unfold Outcome.within
    split <;> simp
  · split <;> exact ⟨hl, by simp⟩
  · unfold Outcome.invokeStatic
    split
    · exact ⟨hl, by simp⟩
    · split
      · exact Outcome.bytecode_decoded hl _ _ _ _
      · split
        · exact ⟨hl, by simp⟩
        · exact Outcome.native_decoded hl _ _ _ _
  · unfold Outcome.invokeVirtual
    split
    · exact ⟨hl, by simp⟩
    · split
      · exact ⟨hl, by simp⟩
      · split
        · exact ⟨hl, by simp⟩
        · split
          · exact ⟨hl, by simp⟩
          · exact Outcome.native_decoded hl _ _ _ _
  · exact ⟨hl, by simp⟩
  · refine ⟨hl, ?_⟩
    unfold Outcome.within
    split <;> simp
  · refine ⟨hl, ?_⟩
    unfold Outcome.within
    split <;> simp
  · exact ⟨hl, by simp⟩

/-! ## One step -/

section
variable {sources : Sources} {m b : Machine} {f g : Frame} {below below' : List Frame}

theorem Sources.corr_zero {owner : Class} {method : Method} {code : Code} (hcode : method.code = some code)
    (hdecoded : method.Decoded) : sources.Corr owner method 0 0 := by
  have hdecode := sources.decodes owner method code hcode hdecoded
  exact ⟨code, hcode, hdecode, (Code.tiles_of_decode hdecode).at_zero⟩

/-- Twins of a later state of the invocation are aligned. -/
theorem Frame.Aligned.of_continues {f' g' : Frame} (hf : f.Continues f')
    (h : f'.Twin (sources.Corr f.owner f.method) g') : f'.Aligned sources g' := by
  unfold Frame.Aligned
  rw [hf.owner, hf.method]
  exact h

theorem Frame.Aligned.pushed (h : f.Aligned sources g) (v : Value) :
    (f.pushed v).Aligned sources (g.pushed v) := Frame.Twin.pushed h v

theorem Frame.Aligned.twin (h : f.Aligned sources g) : f.Twin (fun _ _ => True) g := ⟨h.same, trivial⟩

theorem Frame.twin_of_aligned (h : List.Forall₂ (Frame.Aligned sources) below below') :
    List.Forall₂ (Frame.Twin fun _ _ => True) below below' := h.imp fun _ _ => Frame.Aligned.twin

theorem Frame.Twin.weaken {corr : Nat → Nat → Prop} (h : f.Twin corr g) : f.Twin (fun _ _ => True) g :=
  ⟨h.same, trivial⟩

theorem Machine.Lockstep.twins (h : m.Lockstep sources b) : m.Alike (Frame.Twin fun _ _ => True) b where
  loader := h.loader
  natives := h.natives
  streams := h.streams
  executed := h.executed
  limit := h.limit
  frames := Frame.twin_of_aligned h.frames

/-- The machines after a step that goes on, in lockstep. -/
theorem Machine.Lockstep.put (h : m.Lockstep sources b) {loader : Loader} (hloader : loader.Decoded)
    (streams : Streams) {frames frames' : List Frame}
    (hframes : List.Forall₂ (Frame.Aligned sources) frames frames') (log log' : List Event) :
    ({ m.put loader streams frames log with executed := m.executed + 1 } : Machine).Lockstep sources
      { b.put loader streams frames' log' with executed := b.executed + 1 } where
  loader := rfl
  natives := h.natives
  streams := rfl
  executed := congrArg (· + 1) h.executed
  limit := h.limit
  frames := hframes
  decoded := hloader

/-- The machines after a step that fails. -/
theorem Machine.Lockstep.put_failed (h : m.Lockstep sources b) (loader : Loader) (streams : Streams)
    {frames frames' : List Frame} (hframes : List.Forall₂ (Frame.Twin fun _ _ => True) frames frames')
    (log log' : List Event) :
    (m.put loader streams frames log).Alike (Frame.Twin fun _ _ => True) (b.put loader streams frames' log') where
  loader := rfl
  natives := h.natives
  streams := rfl
  executed := h.executed
  limit := h.limit
  frames := hframes

/-- Twin outcomes end twin steps. -/
theorem Machine.conclude_mirrors (h : m.Lockstep sources b) {inst : Instruction Nat} {o o' : Outcome}
    (hbelow : List.Forall₂ (Frame.Aligned sources) below below')
    (hallowed : o.effect.Allowed f inst) (hdecoded : o.Decoded)
    (htwin : o.Twin (sources.Corr f.owner f.method) (sources.Corr f.owner f.method) o') (log log' : List Event) :
    Mirrors sources (m.conclude below o log) (b.conclude below' o' log') := by
  obtain ⟨heffect, hloader, hstreams⟩ := htwin
  obtain ⟨hl, hcallee⟩ := hdecoded
  unfold conclude
  rw [h.limit, hloader, hstreams]
  generalize hoe : o.effect = effect at heffect hallowed hcallee
  generalize hoe' : o'.effect = effect' at heffect
  cases heffect with
  | stay hfg =>
    exact .ok true (h.put hl _ (.cons (.of_continues hallowed hfg) hbelow) _ _)
  | @call caller caller' callee hfg =>
    have hcaller : f.Continues caller := by
      obtain ⟨-, -, rfl, -⟩ := hallowed
      exact f.continues_dropped _
    have haligned : caller.Aligned sources caller' := .of_continues hcaller hfg
    simp only [Effect.settle, ← hbelow.length_eq]
    by_cases hlimit : m.calls.limit ≤ below.length + 1
    · simp only [if_pos hlimit]
      exact .failed (.refl _) (h.put_failed _ _ (.cons hfg.weaken (Frame.twin_of_aligned hbelow)) _ _)
    · simp only [if_neg hlimit]
      obtain ⟨hzero, hmethod, code, hcode⟩ := hcallee caller callee rfl
      have hself : callee.Aligned sources callee := by
        refine ⟨rfl, ?_⟩
        rw [hzero]
        exact Sources.corr_zero hcode hmethod
      exact .ok true (h.put hl _ (.cons hself (.cons haligned hbelow)) _ _)
  | leave => exact .ok true (h.put hl _ hbelow _ _)
  | give v =>
    cases hbelow with
    | nil => exact .failed (.refl _) (h.put_failed _ _ .nil _ _)
    | cons hcaller hrest =>
      exact .ok true (h.put hl _ (.cons (hcaller.pushed v) hrest) _ _)
  | fail e hfg =>
    exact .failed (.refl e) (h.put_failed _ _ (.cons hfg.weaken (Frame.twin_of_aligned hbelow)) _ _)
  | unsupported opcode owner method hfg hpc =>
    obtain ⟨code, -, hdecode, hat⟩ := hpc
    exact .failed (.unsupportedOpcode _ _ _ hdecode hat)
      (h.put_failed _ _ (.cons hfg.weaken (Frame.twin_of_aligned hbelow)) _ _)
  | hang => exact .unfinished h

/-- An opcode that the machine does not have ends both steps, wherever the next instruction would be. -/
theorem Machine.conclude_mirrors_unknown (h : m.Lockstep sources b) {inst inst' : Instruction Nat} {pc pc' : Nat}
    {byte : UInt8} (hbelow : List.Forall₂ (Frame.Aligned sources) below below')
    (hfg : f.Twin (fun _ _ => True) g) (hpc : sources.Corr f.owner f.method pc pc')
    (hinst : inst.opcode = .unknown byte) (hinst' : inst'.opcode = .unknown byte) (files : FileSystem)
    (natives : NativeTable) (loader : Loader) (streams : Streams) (log log' : List Event) :
    Mirrors sources (m.conclude below (outcome files natives inst pc f loader streams) log)
      (b.conclude below' (outcome files natives inst' pc' g loader streams) log') := by
  obtain ⟨code, -, hdecode, hat⟩ := hpc
  simp only [outcome, hinst, hinst', Opcode.operation, hfg.owner, hfg.method]
  exact .failed (.unsupportedOpcode _ _ _ hdecode hat)
    (h.put_failed _ _ (.cons hfg (Frame.twin_of_aligned hbelow)) _ _)

theorem Frame.byteFetch_eq (h : f.Aligned sources g) {code : Code} (hcode : f.method.code = some code) :
    byteFetch sources g =
      if (sources.bytes f.owner f.method).length ≤ g.pc then
        .error (.invalidFrameAccess (.pastEnd g.pc f.owner.name f.method.name)) g
      else
        match fetchByte (sources.bytes f.owner f.method) g.pc with
        | .error cause => .error (.defect (.invalidCode f.owner.name f.method.name cause)) g
        | .ok (inst, next) => .ok inst { g with pc := next } := by
  unfold byteFetch
  rw [h.owner, h.method, hcode]
  rfl

/-- **One step.** The machines stay in lockstep or fail together. -/
theorem Machine.byteStep_mirrors (h : m.Lockstep sources b) (files : FileSystem) :
    Mirrors sources (step files m) (byteStep sources files b) := by
  have hframes := h.frames
  cases hm : m.calls.frames with
  | nil =>
    rw [hm] at hframes
    have hb := List.forall₂_nil_left_iff.1 hframes
    rw [step_eq_stepWith, byteStep, stepWith_of_empty _ files hm, stepWith_of_empty _ files hb]
    exact .ok false h
  | cons f below =>
    rw [hm] at hframes
    obtain ⟨g, below', haligned, hbelow, hb⟩ := List.forall₂_cons_left_iff.1 hframes
    obtain ⟨code, hcode, hdecode, hat⟩ := haligned.pc
    have hbyte := Frame.byteFetch_eq haligned hcode
    rcases id hat with ⟨inst, hi, hoffset⟩ | ⟨hend, hend'⟩
    · -- The counters are at an instruction, which both machines find.
      have htiles := Code.tiles_of_decode hdecode
      have hfetch : f.fetch? = .ok inst := by simp only [Frame.fetch?, hcode, hi]
      have hin := htiles.inside inst (Array.mem_of_getElem? hi)
      obtain ⟨inst', hinst', htwin⟩ := Code.fetchByte_of_decode hdecode hi
      rw [hoffset] at hin
      rw [if_neg (Nat.not_le_of_lt hin), ← hoffset, hinst'] at hbyte
      obtain ⟨log, hstep⟩ := step_eq hm hfetch files
      obtain ⟨log', hstep'⟩ := stepWith_eq hb hbyte files
      rw [hstep, byteStep, hstep', h.natives, h.loader, h.streams]
      by_cases hdef : Format.defined ((sources.bytes f.owner f.method).byteAt inst.offset) = true
      · have hnext : sources.Corr f.owner f.method (f.pc + 1)
            (inst.offset + Format.length (sources.bytes f.owner f.method) inst.offset) :=
          ⟨code, hcode, hdecode, htiles.at_next hi hdef⟩
        have hfg : Frame.Twin (sources.Corr f.owner f.method) { f with pc := f.pc + 1 }
            { g with pc := inst.offset + Format.length (sources.bytes f.owner f.method) inst.offset } :=
          ⟨by rw [haligned.same], hnext⟩
        have htwin' : inst.Twin (sources.Corr f.owner f.method) inst' :=
          htwin.imp fun i p hcorr => ⟨code, hcode, hdecode, hcorr⟩
        exact conclude_mirrors h hbelow (outcome_allowed inst files m.natives f.pc _ m.loader m.streams)
          (outcome_decoded h.decoded files m.natives inst f.pc _ m.streams)
          (outcome_twin htwin' hfg haligned.pc files m.natives m.loader m.streams) log log'
      · -- What follows an undefined byte is nowhere, but its opcode fails.
        have hfg : Frame.Twin (fun _ _ => True) { f with pc := f.pc + 1 }
            { g with pc := inst.offset + Format.length (sources.bytes f.owner f.method) inst.offset } :=
          ⟨by rw [haligned.same], trivial⟩
        have hopcode := (Code.format_of_decode hdecode (Array.mem_of_getElem? hi)).2.1
        rw [Format.opcode_of_undefined hdef] at hopcode
        exact conclude_mirrors_unknown h hbelow hfg haligned.pc hopcode (htwin.opcode.trans hopcode) files m.natives
          m.loader m.streams log log'
    · -- The counters are past the end, where no instruction is.
      have hfetch : f.fetch? = .error (.invalidFrameAccess (.pastEnd f.pc f.owner.name f.method.name)) := by
        simp only [Frame.fetch?, hcode, hend, Array.getElem?_size]
      rw [if_pos (Nat.le_of_eq hend'.symm)] at hbyte
      rw [step_of_fetch_error hm hfetch, byteStep, stepWith_of_fetch_error hb hbyte, put_self hb]
      exact .failed (.pastEnd _ _ hdecode hat) h.twins

end

/-! ## Where branches lead -/

/-- Whether a branch is taken, with the operand stack as it finds it. -/
def FrameOperation.taken : FrameOperation → List Value → Bool
  | .goto, _ => true
  | .branchZero test, .int v :: _ => test.holds v 0
  | .branchCompare test, .int b :: .int a :: _ => test.holds a b
  | .branchNull expected, v :: _ => (v == .null) == expected
  | _, _ => false

namespace Frame
variable {f f' : Frame}

theorem pc_of_jumpIf {test : Bool} {target : Nat}
    (h : (if test then jump target else pure () : OnFrame Unit) f = .ok () f') :
    f'.pc = if test then target else f.pc := by
  cases test <;> cases h <;> rfl

theorem pc_of_branch {act : FrameOperation} (hbranch : act.isBranch = true) {inst : Instruction Nat} {target : Nat}
    (hinst : branchOperand inst = .ok target) (h : perform act inst f = .ok () f') :
    f'.pc = if act.taken f.stack then target else f.pc := by
  cases act with
  | branchZero test =>
    simp only [perform, hinst] at h
    obtain ⟨v, f₁, hv, h⟩ := exists_of_bind_eq_ok (show (popInt >>= _) f = _ from h)
    obtain ⟨hstack, hpc⟩ := popInt_ok hv
    rw [pc_of_jumpIf h, hstack, hpc, FrameOperation.taken]
  | branchCompare test =>
    simp only [perform, hinst] at h
    obtain ⟨b, f₁, hb, h⟩ := exists_of_bind_eq_ok (show (popInt >>= _) f = _ from h)
    obtain ⟨a, f₂, ha, h⟩ := exists_of_bind_eq_ok h
    obtain ⟨hstack, hpc⟩ := popInt_ok hb
    obtain ⟨hstack₁, hpc₁⟩ := popInt_ok ha
    rw [pc_of_jumpIf h, hstack, hstack₁, hpc₁, hpc, FrameOperation.taken]
  | branchNull expected =>
    simp only [perform, hinst] at h
    obtain ⟨v, f₁, hv, h⟩ := exists_of_bind_eq_ok (show (popReference >>= _) f = _ from h)
    obtain ⟨hstack, hpc⟩ := popReference_ok hv
    rw [pc_of_jumpIf h, hstack, hpc, FrameOperation.taken]
  | goto =>
    simp only [perform, hinst] at h
    cases h
    rfl
  | _ => cases hbranch

/-- Where the branch `inst` of the frame `f` leaves it: at the instruction that starts `displacement`
bytes from its own start if it is taken, and else at the next one. -/
def Lands (sources : Sources) (f : Frame) (inst : Instruction Nat) (displacement : Int) (f' : Frame) : Prop :=
  ∃ code act, f.method.code = some code ∧ inst.opcode.operation = .within act ∧
    if act.taken f.stack then
      ∃ target, code[f'.pc]? = some target ∧ (target.offset : Int) = inst.offset + displacement
    else
      f'.pc = f.pc + 1 ∧ code.At (sources.bytes f.owner f.method) f'.pc
        (inst.offset + Format.length (sources.bytes f.owner f.method) inst.offset)

end Frame

theorem Machine.step_lands {sources : Sources} {m m' : Machine} {f : Frame} {below : List Frame}
    {inst : Instruction Nat} {displacement : Int} {files : FileSystem} {more : Bool} {code : Code}
    (hm : m.calls.frames = f :: below) (hfetch : f.fetch? = .ok inst) (hcode : f.method.code = some code)
    (hdecode : Code.decode (sources.bytes f.owner f.method) = .ok code)
    (hoperand : Format.operand inst.opcode (sources.bytes f.owner f.method) inst.offset = .branch displacement)
    (hstep : step files m = .ok more m') :
    ∃ f', m'.calls.frames = f' :: below ∧ f.Lands sources inst displacement f' := by
  have hi := Frame.getElem?_of_fetch? hcode hfetch
  obtain ⟨-, hopcode, hresolves⟩ := Code.format_of_decode hdecode (Array.mem_of_getElem? hi)
  rw [hoperand] at hresolves
  obtain ⟨index, target, hindex, hget, htarget⟩ := hresolves
  obtain ⟨act, hact, hbranch⟩ := Opcode.operation_of_branch (Format.mem_branchOpcodes hoperand)
  obtain ⟨log, hrun⟩ := step_eq hm hfetch files
  rw [hrun] at hstep
  obtain ⟨frames, hsettle, rfl⟩ := conclude_eq_ok hstep
  simp only [outcome, hact, Outcome.within] at hsettle
  cases hperform : Frame.perform act inst { f with pc := f.pc + 1 } with
  | error e f' =>
    rw [hperform] at hsettle
    cases hsettle
  | ok _ f' =>
    rw [hperform] at hsettle
    cases hsettle
    refine ⟨f', rfl, code, act, hcode, hact, ?_⟩
    have hpc := Frame.pc_of_branch hbranch (by rw [Frame.branchOperand, hindex]) hperform
    by_cases htaken : act.taken f.stack = true
    · rw [if_pos htaken] at hpc ⊢
      exact ⟨target, by rw [hpc, hget], htarget⟩
    · rw [if_neg htaken] at hpc ⊢
      have hdef : Format.defined ((sources.bytes f.owner f.method).byteAt inst.offset) = true := by
        by_contra hundefined
        rw [hopcode, Format.opcode_of_undefined hundefined] at hact
        cases hact
      exact ⟨hpc, by rw [hpc]; exact (Code.tiles_of_decode hdecode).at_next hi hdef⟩

/-! ## Runs -/

namespace Machine

/-- Takes one step for each file system that it finds, until a step fails. -/
def runWith (step : FileSystem → Exec Bool) : List FileSystem → Exec Unit
  | [] => pure ()
  | files :: rest => do
    let _ ← step files
    runWith step rest

variable {sources : Sources} {m b : Machine}

theorem run_mirrors (h : m.Lockstep sources b) (run : List FileSystem) :
    Mirrors sources (runWith step run m) (runWith (byteStep sources) run b) := by
  induction run generalizing m b with
  | nil => exact .ok () h
  | cons files rest ih =>
    have hfirst := byteStep_mirrors h files
    rw [runWith, runWith]
    cases hm : step files m with
    | ok more m₁ =>
      rw [hm] at hfirst
      cases hb : byteStep sources files b with
      | ok more' b₁ =>
        rw [hb] at hfirst
        cases hfirst with
        | ok _ h₁ =>
          rw [bind_of_ok hm, bind_of_ok hb]
          exact ih h₁
      | error stop b₁ =>
        rw [hb] at hfirst
        cases hfirst
    | error stop m₁ =>
      rw [hm] at hfirst
      cases hb : byteStep sources files b with
      | ok more' b₁ =>
        rw [hb] at hfirst
        cases hfirst
      | error stop' b₁ =>
        rw [hb] at hfirst
        rw [bind_of_error hm, bind_of_error hb]
        cases hfirst with
        | failed he halike => exact .failed he halike
        | unfinished h₁ => exact .unfinished h₁

/-- A machine whose frames are all about to start counts indices as well as bytes. -/
theorem lockstep_of_started (hloader : m.loader.Decoded)
    (hframes : ∀ f ∈ m.calls.frames, f.pc = 0 ∧ f.method.Decoded ∧ ∃ code, f.method.code = some code) :
    m.Lockstep sources m where
  loader := rfl
  natives := rfl
  streams := rfl
  executed := rfl
  limit := rfl
  frames := by
    refine List.forall₂_same.2 fun f hf => ⟨rfl, ?_⟩
    obtain ⟨hpc, hdecoded, code, hcode⟩ := hframes f hf
    rw [hpc]
    exact Sources.corr_zero hcode hdecoded
  decoded := hloader

/-- A program starts in lockstep. -/
theorem lockstep_of_prepare {files : FileSystem} {className : String} {m m' : Machine} (hm : m.loader.Decoded)
    (h : prepare files className m = .ok () m') : m'.Lockstep sources m' := by
  obtain ⟨log, hprepare⟩ := prepare_eq files className m
  obtain ⟨log', henter⟩ := enter_eq files className (m.put m.loader m.streams [] log)
  rw [hprepare, henter] at h
  obtain ⟨hdecoded, hclass⟩ := Loader.decoded_resolve files hm className
  cases hentered : (m.put m.loader m.streams [] log).entered files className with
  | error e =>
    rw [hentered] at h
    cases h
  | ok frames =>
    rw [hentered] at h
    cases h
    obtain ⟨c, f, hc, hf, -, rfl⟩ := entered_ok hentered
    obtain ⟨method, code, hentry, -, hcode, rfl⟩ := Class.entry_eq_ok hf
    refine lockstep_of_started hdecoded fun g hg => ?_
    obtain rfl := List.mem_singleton.1 hg
    exact ⟨rfl, hclass c hc method (Class.mem_of_entryPoint? hentry), code, hcode⟩

/-- **The machine refines one that counts bytes.** Started in lockstep, the two stay so through every
run, or fail together at the same step; and a branch of a run leads to the instruction its displacement
reaches, or to the next one. -/
theorem byte_refinement (sources : Sources) (m b : Machine) (h : m.Lockstep sources b) (run : List FileSystem) :
    Mirrors sources (runWith step run m) (runWith (byteStep sources) run b) ∧
      ∀ m₁ f below inst displacement, runWith step run m = .ok () m₁ → m₁.calls.frames = f :: below →
        f.fetch? = .ok inst →
        Format.operand inst.opcode (sources.bytes f.owner f.method) inst.offset = .branch displacement →
        ∀ files more m₂, step files m₁ = .ok more m₂ →
          ∃ f', m₂.calls.frames = f' :: below ∧ f.Lands sources inst displacement f' := by
  have hrun := run_mirrors h run
  refine ⟨hrun, fun m₁ f below inst displacement hm₁ hframes hfetch hoperand files more m₂ hstep => ?_⟩
  rw [hm₁] at hrun
  cases hb : runWith (byteStep sources) run b with
  | error stop b₁ =>
    rw [hb] at hrun
    cases hrun
  | ok _ b₁ =>
    rw [hb] at hrun
    obtain ⟨-, h₁⟩ := hrun
    have haligned := h₁.frames
    rw [hframes] at haligned
    obtain ⟨g, below', hf, -⟩ := List.forall₂_cons_left_iff.1 haligned
    obtain ⟨code, hcode, hdecode, -⟩ := hf.pc
    exact step_lands hframes hfetch hcode hdecode hoperand hstep

end Machine

/-! ### A loop without end -/

namespace Sample

/-- Pushes zero for ever. -/
def spinBytes : Bytes := [0x03, 0xa7, 0xff, 0xff]

def spin : Method where
  name := "main"
  descriptor := "()V"
  access := 0x0008
  type := ⟨[], none⟩
  maxStack := 1
  maxLocals := 0
  code := some #[⟨0, .iconst0, .int 0⟩, ⟨1, .goto, .branch 0⟩]

def spinning : Class := ⟨"A", none, ⟨#[]⟩, [spin]⟩

/-- The class is loaded. -/
def spinner : Machine := { loader := { roots := [], cache := [("A", spinning)] } }

/-- The program has been entered. -/
def spun : Machine := spinner.leftBy (Machine.prepare (.ofRecord []) "A")

end Sample

/-- Two rounds of the loop. -/
theorem byte_refinement_spin :
    ∃ sources : Sources, sources.bytes Sample.spinning Sample.spin = Sample.spinBytes ∧
      Sample.spinner.answer (Machine.prepare (.ofRecord []) "A") = .ok () ∧ Sample.spun.Lockstep sources Sample.spun ∧
      Machine.Mirrors sources (Machine.runWith Machine.step (List.replicate 4 (.ofRecord [])) Sample.spun)
        (Machine.runWith (Machine.byteStep sources) (List.replicate 4 (.ofRecord [])) Sample.spun) := by
  have hdecode : Code.decode Sample.spinBytes = .ok #[⟨0, .iconst0, .int 0⟩, ⟨1, .goto, .branch 0⟩] := by cbv
  obtain ⟨sources, hbytes⟩ := Sources.exists_bytes Sample.spinning (show Sample.spin.code = _ from rfl) hdecode
  have hanswer : Sample.spinner.answer (Machine.prepare (.ofRecord []) "A") = .ok () := by decide +kernel
  have hdecoded : Sample.spinner.loader.Decoded := by
    intro entry hentry method hmethod
    obtain rfl := List.mem_singleton.1 hentry
    obtain rfl := List.mem_singleton.1 hmethod
    rintro _ ⟨⟩
    exact ⟨_, hdecode⟩
  have hstart : Sample.spun.Lockstep sources Sample.spun :=
    Machine.lockstep_of_prepare hdecoded (Machine.eq_ok_of_answer hanswer)
  obtain ⟨hrun, -⟩ := Machine.byte_refinement sources Sample.spun Sample.spun hstart
    (List.replicate 4 (.ofRecord []))
  exact ⟨sources, hbytes, hanswer, hstart, hrun⟩

end Jvm
