import Jvm.Proofs.Class
import Jvm.Proofs.ClassFile.RoundTrip
import Jvm.Proofs.Code.Encodings
import Jvm.Proofs.Machine.ByteAddressed
import Jvm.Proofs.Machine.WithinFrame

/-!
# Integer constants from the file to the operand stack

An integer gets into a method in its code or in a constant, and the code says how in one of the ways of
`Encoding`. Reading the file, building the class and decoding the method lead to an instruction that
pushes this integer, wherever the constant is in its pool.

Main theorem `constant_pushed`.
-/

namespace Jvm

/-! ## What is written -/

/-- A way to write that `value` is pushed, in a file with these constants: with the integer in the code,
or with the slot of a constant. -/
inductive Written.Pushes (constants : List Constant) (value : Int32) (enc : Bytes) : Prop
  | immediate (h : Encoding Opcode.intPushes (.int value) enc)
  | constant {k : Nat} (hconstant : constants[k]? = some (.integer value))
      (h : Encoding Opcode.constantLoads (.index (.ofNat (Constant.slotOf constants k))) enc)

/-- The file declares a class, and in the code of the method of this name and descriptor, where an
instruction starts, it has `enc`, between `before` and `after`. -/
structure Written.ClassFile.Has (s : Written.ClassFile) (name descriptor : String) (before enc after : Bytes) :
    Prop where
  fits : s.Fits
  declarable : s.file.Declarable
  member : ∃ member maxStack maxLocals, LastWith (·.IsNamed s.file.pool name descriptor) s.file.methods member ∧
    member.attributes.HasCode maxStack maxLocals (before ++ enc ++ after)
  scanned : Code.Scanned (before ++ enc ++ after) before.length

/-! ## From the file to the instruction -/

section
variable {s : Written.ClassFile} {name descriptor : String} {before enc after : Bytes}

theorem Written.ClassFile.Has.exists_method (h : s.Has name descriptor before enc after) :
    ∃ c method code, Class.ofFile s.file = .ok c ∧ c.method? name descriptor = some method ∧
      method.code = some code ∧ Code.decode (before ++ enc ++ after) = .ok code := by
  obtain ⟨c, hc⟩ := Class.exists_ofFile_iff.2 h.declarable
  obtain ⟨member, maxStack, maxLocals, hlast, hcode⟩ := h.member
  obtain ⟨method, hmethod⟩ := Method.declarable_iff.1 (h.declarable.methods member hlast.mem)
  have hnamed := hmethod.isNamed_iff.2 hlast.has
  obtain ⟨rfl, rfl⟩ := Method.isNamed_iff.1 hnamed
  obtain ⟨code, hdecode, hbody⟩ := hmethod.body.decodes hcode
  exact ⟨c, method, code, hc, ((Class.declaredBy_of_ofFile hc).last _ _ _).2 ⟨member, hlast, hmethod⟩, hbody, hdecode⟩

end

namespace Code
variable {bytes : Bytes} {code : Code} {start : Nat}

/-- Each scanned instruction is decoded. -/
theorem exists_getElem_of_scanned (h : decode bytes = .ok code) (hstart : Scanned bytes start) :
    ∃ (pc : Nat) (inst : Instruction Nat), code[pc]? = some inst ∧ inst.offset = start := by
  obtain ⟨cut, hcut, hsize, hback⟩ := of_decode h
  obtain ⟨cutInst, hmem, rfl⟩ := hcut.scannedFrom_iff.1 hstart
  obtain ⟨pc, hpc, hget⟩ := List.mem_iff_getElem.1 hmem
  have hcode : code[pc]? = some code[pc] := Array.getElem?_eq_getElem (by omega)
  obtain ⟨inst, hinst, hoffset, -⟩ := hback pc _ hcode
  rw [List.getElem?_eq_getElem hpc, hget] at hinst
  exact ⟨pc, _, hcode, hoffset.trans (congrArg Instruction.offset (Option.some.inj hinst)).symm⟩

/-- What follows an instruction in the code is the next one that is decoded. -/
theorem exists_next_opcode {before enc after : Bytes} (h : decode (before ++ enc ++ after) = .ok code) {pc : Nat}
    {inst : Instruction Nat} (hinst : code[pc]? = some inst) (hoffset : inst.offset = before.length)
    (hlength : Format.length (before ++ enc ++ after) inst.offset = enc.length)
    (hdef : Format.defined ((before ++ enc ++ after).byteAt inst.offset)) {byte : UInt8} (hbyte : after.head? = some byte)
    (hwide : byte ≠ 0xc4) :
    ∃ following, code[pc + 1]? = some following ∧ following.opcode = .ofByte byte := by
  obtain ⟨rest, rfl⟩ : ∃ rest, after = byte :: rest := by simpa using List.head?_eq_some_iff.1 hbyte
  rcases (tiles_of_decode h).at_next hinst hdef with ⟨following, hnext, hstart⟩ | ⟨-, hend⟩
  · rw [hoffset] at hlength hstart
    rw [hlength, ← List.length_append, ← Nat.add_zero (before ++ enc).length] at hstart
    have hhere := Format.byteAt_append_right (before ++ enc) (byte :: rest) 0
    rw [← hstart] at hhere
    refine ⟨following, hnext, ?_⟩
    rw [(format_of_decode h (Array.mem_of_getElem? hnext)).2.1, Format.opcode_of_ne_wide (hhere ▸ hwide), hhere]
    rfl
  · -- There is more code than the instruction.
    rw [hlength, hoffset, List.length_append, List.length_append, List.length_cons] at hend
    omega

end Code

/-! ## The instruction -/

theorem operation_of_mem_intPushes {op : Opcode} (h : op ∈ Opcode.intPushes) : op.operation = .within .pushInt := by
  have htable : ∀ op ∈ Opcode.intPushes, op.operation = .within .pushInt := by decide
  exact htable op h

theorem operation_of_mem_constantLoads {op : Opcode} (h : op ∈ Opcode.constantLoads) :
    op.operation = .within .loadConstant := by
  have htable : ∀ op ∈ Opcode.constantLoads, op.operation = .within .loadConstant := by decide
  exact htable op h

theorem Frame.constantValue_of_integer {pool : ConstantPool} {index : UInt16} {value : Int32}
    (h : pool.get? index = some (.integer value)) : constantValue pool index = .ok value := by
  simp only [constantValue, ConstantPool.integer, h, Option.bind_eq_bind, Option.bind_some, Constant.unloadable?]
  rfl

section
variable {files : FileSystem} {m : Machine} {f : Frame} {below : List Frame} {inst : Instruction Nat} {value : Int32}

theorem Machine.stepsTo_pushInt (h : m.At f below inst) (hop : inst.opcode ∈ Opcode.intPushes)
    (hoperand : inst.operand = .int value) :
    m.StepsTo files (({ f with pc := f.pc + 1 } : Frame).pushed (.int value) :: below) :=
  stepsTo_of_perform h (operation_of_mem_intPushes hop) (Frame.perform_pushInt hoperand)

theorem Machine.stepsTo_loadConstant (h : m.At f below inst) (hop : inst.opcode ∈ Opcode.constantLoads)
    {index : UInt16} (hoperand : inst.operand = .index index)
    (hconstant : f.owner.pool.get? index = some (.integer value)) :
    m.StepsTo files (({ f with pc := f.pc + 1 } : Frame).pushed (.int value) :: below) :=
  stepsTo_of_perform h (operation_of_mem_constantLoads hop)
    (Frame.perform_loadConstant hoperand (Frame.constantValue_of_integer hconstant))

end

/-- What has been pushed is popped again. -/
theorem Machine.stepsTo_pop {files : FileSystem} {m : Machine} {f : Frame} {below : List Frame}
    {inst : Instruction Nat} {v : Value} (h : m.At (f.pushed v) below inst) (hop : inst.opcode = .pop) :
    m.StepsTo files ({ f with pc := f.pc + 1 } :: below) := by
  have hstack : ({ f.pushed v with pc := f.pc + 1 } : Frame).stack = v :: f.stack := rfl
  exact stepsTo_of_perform h (hop ▸ rfl) (Frame.perform_pop hstack)

/-- A slot that holds a constant is within the 16 bits of an operand. -/
theorem Written.ClassFile.Fits.get?_slotOf {s : Written.ClassFile} (h : s.Fits) {k : Nat} {c : Constant}
    (hk : s.constants[k]? = some c) : s.file.pool.get? (.ofNat (Constant.slotOf s.constants k)) = some c := by
  have hslot := Constant.pool_slotOf hk
  have hlt := (Array.getElem?_eq_some_iff.1 hslot).1
  rw [Constant.size_pool] at hlt
  have hfits := h.slots
  rw [ConstantPool.get?, UInt16.toNat_ofNat', Nat.mod_eq_of_lt (by omega)]
  exact hslot

/-- The decoded instruction pushes the integer. -/
theorem Written.Pushes.stepsTo {s : Written.ClassFile} {enc bytes : Bytes} {code : Code} {value : Int32}
    {inst : Instruction Nat} (h : Pushes s.constants value enc) (hfits : s.Fits)
    (hdecode : Code.decode bytes = .ok code) (hinst : inst ∈ code) (hat : enc <+: bytes.drop inst.offset)
    {files : FileSystem} {m : Machine} {f : Frame} {below : List Frame} (hm : m.At f below inst)
    (hpool : f.owner.pool = s.file.pool) :
    m.StepsTo files (({ f with pc := f.pc + 1 } : Frame).pushed (.int value) :: below) := by
  cases h with
  | immediate h =>
    obtain ⟨hop, hoperand⟩ := h.decoded hdecode hinst hat
    exact Machine.stepsTo_pushInt hm hop hoperand
  | constant hconstant h =>
    obtain ⟨hop, hoperand⟩ := h.decoded hdecode hinst hat
    exact Machine.stepsTo_loadConstant hm hop hoperand (hpool ▸ hfits.get?_slotOf hconstant)

theorem Written.Pushes.encoding {constants : List Constant} {value : Int32} {enc : Bytes}
    (h : Pushes constants value enc) : ∃ family operand, Encoding family operand enc := by
  cases h with
  | immediate h | constant _ h => exact ⟨_, _, h⟩

theorem Written.Pushes.length_eq {constants : List Constant} {value : Int32} {enc bytes : Bytes} {offset : Nat}
    (h : Pushes constants value enc) (hat : enc <+: bytes.drop offset) :
    Format.length bytes offset = enc.length ∧ Format.defined (bytes.byteAt offset) := by
  obtain ⟨family, operand, hencoding⟩ := h.encoding
  exact hencoding.length_eq hat

/-- **Constants.** An integer that a class file pushes, in its code or from a constant in any slot, is
pushed by the decoded method, and a `pop` after it undoes that. -/
theorem constant_pushed (s : Written.ClassFile) (name descriptor : String) (before enc after trailing : Bytes)
    (value : Int32) (hhas : s.Has name descriptor before enc after) (hpushes : Written.Pushes s.constants value enc) :
    ClassFile.parse (s.write ++ trailing) = .ok s.file ∧
      ∃ c method code pc, Class.ofFile s.file = .ok c ∧ c.method? name descriptor = some method ∧
        method.code = some code ∧ Code.decode (before ++ enc ++ after) = .ok code ∧
        (∃ inst, code[pc]? = some inst ∧ inst.offset = before.length) ∧
        ∀ (files : FileSystem) (m : Machine) (f : Frame) (below : List Frame), m.calls.frames = f :: below →
          f.owner = c → f.method = method → f.pc = pc →
            m.StepsTo files (({ f with pc := pc + 1 } : Frame).pushed (.int value) :: below) ∧
              (after.head? = some Opcode.pop.byte → ∀ m', Machine.step files m = .ok true m' →
                m'.StepsTo files ({ f with pc := pc + 2 } :: below)) := by
  refine ⟨Written.ClassFile.parse_append hhas.fits trailing, ?_⟩
  obtain ⟨c, method, code, hc, hmethod, hcode, hdecode⟩ := hhas.exists_method
  obtain ⟨pc, inst, hinst, hoffset⟩ := Code.exists_getElem_of_scanned hdecode hhas.scanned
  refine ⟨c, method, code, pc, hc, hmethod, hcode, hdecode, ⟨inst, hinst, hoffset⟩, ?_⟩
  rintro files m f below hm rfl rfl rfl
  have hmem := Array.mem_of_getElem? hinst
  have hat : enc <+: (before ++ enc ++ after).drop inst.offset := by
    rw [hoffset, List.append_assoc, List.drop_left]
    exact List.prefix_append enc after
  have hfetch : f.fetch? = .ok inst := by
    simp only [Frame.fetch?, hcode, hinst]
  have hpool := (Class.declaredBy_of_ofFile hc).pool
  have hsteps : m.StepsTo files _ := hpushes.stepsTo hhas.fits hdecode hmem hat ⟨hm, hfetch⟩ hpool
  refine ⟨hsteps, fun hpop m' hm' => ?_⟩
  obtain ⟨log, hstep⟩ := hsteps
  rw [hstep] at hm'
  obtain ⟨hlength, hdef⟩ := hpushes.length_eq hat
  obtain ⟨following, hfollowing, hop⟩ := Code.exists_next_opcode hdecode hinst hoffset hlength hdef hpop (by decide)
  have hfetch' : (({ f with pc := f.pc + 1 } : Frame).pushed (.int value)).fetch? = .ok following := by
    simp only [Frame.pushed, Frame.fetch?, hcode, hfollowing]
  cases hm'
  exact Machine.stepsTo_pop (f := { f with pc := f.pc + 1 }) ⟨rfl, hfetch'⟩ hop

namespace Written.ClassFile

/-- A class `A` whose `f()V` loads an integer from behind a constant of two slots, and pops it. -/
def loading : ClassFile where
  minorVersion := 0
  majorVersion := 52
  constants := [.utf8 "A", .classRef 1, .utf8 "f", .utf8 "()V", .utf8 "Code", .long 7, .integer (-123456)]
  access := 0x21
  thisClass := 2
  superClass := 0
  interfaces := []
  fields := []
  methods := [⟨8, 3, 4, [.code 5 16 1 0 [0x12, 8, 0x57, 0xb1] [] []]⟩]
  attributes := []

theorem loading_has : loading.Has "f" "()V" [] [0x12, 8] [0x57, 0xb1] := by
  have hpool : Constant.pool loading.constants =
      #[.unusable, .utf8 "A", .classRef 1, .utf8 "f", .utf8 "()V", .utf8 "Code", .long 7, .unusable,
        .integer (-123456)] := rfl
  have htexts : ∀ text ∈ ["A", "f", "()V", "Code"], (Text.ModifiedUtf8.encode text).length < 65536 := by decide
  have htype : MethodType.ofDescriptor? "()V" = some ⟨[], none⟩ := by decide +kernel
  have hdecode : Code.decode [0x12, 8, 0x57, 0xb1] =
      .ok #[⟨0, .ldc, .index 8⟩, ⟨2, .pop, .none⟩, ⟨3, .ret, .none⟩] := by cbv
  constructor
  case fits =>
    constructor
    case constants =>
      intro c hc
      simp only [loading, List.mem_cons, List.not_mem_nil, or_false] at hc
      rcases hc with rfl | rfl | rfl | rfl | rfl | rfl | rfl
      case inr.inl | inr.inr.inr.inr.inr.inl | inr.inr.inr.inr.inr.inr => exact trivial
      all_goals exact htexts _ (by simp)
    case eachField => simp [loading]
    case eachMethod =>
      rw [hpool]
      simp [loading, Member.Fits, AttributesFit, Attribute.Fits]
    case eachAttribute => simp [loading, AttributesFit]
    all_goals decide
  case declarable =>
    refine ⟨⟨"A", 1, rfl, rfl⟩, .inl rfl, fun member hmem => ?_⟩
    obtain rfl := List.mem_singleton.1 hmem
    refine ⟨⟨"f", rfl⟩, ⟨"()V", _, rfl, htype⟩, ?_⟩
    rintro maxStack maxLocals bytes ⟨handlers, inner, hget⟩
    cases hget
    exact ⟨_, hdecode⟩
  case member =>
    refine ⟨_, 1, 0, ⟨?_, [], [], rfl, by simp⟩, ?_⟩
    · exact ⟨rfl, rfl⟩
    · exact ⟨[], [], rfl⟩
  case scanned => exact .here (by decide)

end Written.ClassFile

theorem constant_pushed_loading :
    ∃ c method, Class.ofFile Written.ClassFile.loading.file = .ok c ∧ c.method? "f" "()V" = some method ∧
      ∃ pc, ∀ (files : FileSystem) (m : Machine) (locals : Array Value) (stack : List Value) (below : List Frame),
        m.calls.frames = ⟨c, method, pc, stack, locals⟩ :: below →
          m.StepsTo files (⟨c, method, pc + 1, .int (-123456) :: stack, locals⟩ :: below) := by
  have hpushes : Written.Pushes Written.ClassFile.loading.constants (-123456) [0x12, 8] :=
    .constant (k := 6) rfl (Encoding.ldc 8)
  obtain ⟨-, c, method, code, pc, hc, hmethod, -, -, -, hsteps⟩ :=
    constant_pushed _ "f" "()V" _ _ _ [] _ Written.ClassFile.loading_has hpushes
  exact ⟨c, method, hc, hmethod, pc, fun files m locals stack below hm =>
    (hsteps files m ⟨c, method, pc, stack, locals⟩ below hm rfl rfl rfl).1⟩

end Jvm
