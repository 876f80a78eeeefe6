import Jvm.Proofs.Loader.Roots
import Jvm.Proofs.Machine.Constants
import Jvm.Proofs.Machine.NativeCall
import Jvm.Proofs.Machine.Recursion

/-!
# A program that sums and prints

`program` is the file of a class whose `main` pushes an integer, in any of the ways there are, calls
`sum(I)I` with it, keeps what comes back and prints it. The program is followed from its file to its end, or
to the call that there is no room for. Main theorem `start_sums_or_overflows`.
-/

namespace Jvm

namespace Summing

/-! ## The file -/

/-- The constants of the class. In slot 10 is the standard output, in slot 16 `println(I)V`, and in slot 20
`sum(I)I`. There may be more constants. -/
def constants (extra : List Constant) : List Constant := [
  .utf8 "demo/Sum", .classRef 1, .utf8 "java/lang/Object", .classRef 3,
  .utf8 "java/lang/System", .classRef 5, .utf8 "out", .utf8 "Ljava/io/PrintStream;", .nameAndType 7 8, .fieldRef 6 9,
  .utf8 "java/io/PrintStream", .classRef 11, .utf8 "println", .utf8 "(I)V", .nameAndType 13 14, .methodRef 12 15,
  .utf8 "sum", .utf8 "(I)I", .nameAndType 17 18, .methodRef 2 19,
  .utf8 "Code", .utf8 "main", .utf8 "([Ljava/lang/String;)V"] ++ extra

/-- What `main` does once the integer is pushed. -/
def afterPush : Bytes := [0xb8, 0x00, 0x14, 0x3c, 0xb2, 0x00, 0x0a, 0x1b, 0xb6, 0x00, 0x10, 0xb1]

def mainMember (push : Bytes) : Written.Member :=
  ⟨9, 22, 23, [.code 21 (.ofNat (24 + push.length)) 2 2 (push ++ afterPush) [] []]⟩

def sumMember : Written.Member := ⟨9, 17, 18, [.code 21 27 3 1 bytes [] []]⟩

def program (extra : List Constant) (push : Bytes) : Written.ClassFile where
  minorVersion := 0
  majorVersion := 52
  constants := constants extra
  access := 0x21
  thisClass := 2
  superClass := 4
  interfaces := []
  fields := []
  methods := [mainMember push, sumMember]
  attributes := []

/-- The file of the program is the first under the roots to give a class of its name, which is not loaded
yet, and nothing that it prints is refused. -/
structure Hosted (files : FileSystem) (m : Machine) (s : Written.ClassFile) : Prop where
  fresh : m.loader.cached? "demo/Sum" = none
  file : ∃ before root after, m.loader.roots = before ++ root :: after ∧
    files.read (Path.classFile root "demo/Sum") = .ok s.write ∧
    ∀ earlier ∈ before, ∀ c, ¬Loader.Gives files "demo/Sum" earlier c
  natives : m.natives = .standard
  accept : m.streams.Accept

/-! ## The class -/

/-- What is decoded of `main`, where `first` is the instruction that pushes the integer. -/
def mainCode (push : Bytes) (first : Instruction Nat) : Code := #[first,
  ⟨push.length, .invokestatic, .index 20⟩, ⟨push.length + 3, .istore1, .slot 1⟩,
  ⟨push.length + 4, .getstatic, .index 10⟩, ⟨push.length + 7, .iload1, .slot 1⟩,
  ⟨push.length + 8, .invokevirtual, .index 16⟩, ⟨push.length + 11, .ret, .none⟩]

def main (push : Bytes) (first : Instruction Nat) : Method :=
  ⟨Class.entryName, Class.entryDescriptor, 9, ⟨[.array .reference], none⟩, 2, 2, some (mainCode push first)⟩

def sum : Method := ⟨"sum", "(I)I", 9, ⟨[.primitive .int], some (.primitive .int)⟩, 3, 1, some code⟩

/-- The class that the file declares. -/
def summing (extra : List Constant) (push : Bytes) (first : Instruction Nat) : Class where
  name := "demo/Sum"
  superName := some "java/lang/Object"
  pool := ⟨Constant.pool (constants extra)⟩
  methods := [main push first, sum]

/-- The program is a file that can be written, and `first` is what is decoded of a push of `value`. -/
structure Compiled (extra : List Constant) (push : Bytes) (value : Int32) (first : Instruction Nat) : Prop where
  fits : (program extra push).Fits
  pushes : Written.Pushes (constants extra) value push
  offset : first.offset = 0
  decodes : Code.decode (push ++ afterPush) = .ok (mainCode push first)

section
variable {extra : List Constant} {push : Bytes} {value : Int32} {first : Instruction Nat}

theorem scan_afterPush (offset : Nat) : Code.scan offset afterPush = .ok [
    ⟨offset, .invokestatic, .index 20⟩, ⟨offset + 3, .istore1, .slot 1⟩, ⟨offset + 4, .getstatic, .index 10⟩,
    ⟨offset + 7, .iload1, .slot 1⟩, ⟨offset + 8, .invokevirtual, .index 16⟩, ⟨offset + 11, .ret, .none⟩] := by cbv

/-- `main` is decoded, whichever way the integer is written. -/
theorem exists_compiled (hfits : (program extra push).Fits) (hpush : Written.Pushes (constants extra) value push) :
    ∃ first, Compiled extra push value first := by
  obtain ⟨family, operand, hencoding⟩ := hpush.encoding
  obtain ⟨op, displaced, hfixed, hscan⟩ := hencoding.scan_append afterPush
  have hfirst : ∀ l, Code.resolve l ⟨0, op, displaced⟩ = .ok ⟨0, op, operand⟩ :=
    fun _ => congrArg (Except.map _) (hfixed _)
  refine ⟨⟨0, op, operand⟩, hfits, hpush, rfl, ?_⟩
  rw [Code.decode_of_scan_ok (hscan _ (scan_afterPush push.length)), mapM_cons_ok (hfirst _)]
  rfl

theorem Compiled.parse_eq (h : Compiled extra push value first) :
    ClassFile.parse (program extra push).write = .ok (program extra push).file := by
  rw [← List.append_nil (program extra push).write]
  exact Written.ClassFile.parse_append h.fits []

theorem Compiled.ofFile_eq (h : Compiled extra push value first) :
    Class.ofFile (program extra push).file = .ok (summing extra push first) := by
  have htype : MethodType.ofDescriptor? "([Ljava/lang/String;)V" = some ⟨[.array .reference], none⟩ := by
    decide +kernel
  have hmain : Method.ofMember (program extra push).file.pool "demo/Sum"
      ((mainMember push).member (Constant.pool (constants extra))) = .ok (main push first) :=
    Method.ofMember_eq_ok_iff.2 ⟨⟨rfl, rfl⟩, htype, rfl, .code ⟨[], [], rfl⟩ h.decodes⟩
  have hsum : Method.ofMember (program extra push).file.pool "demo/Sum"
      (sumMember.member (Constant.pool (constants extra))) = .ok sum :=
    Method.ofMember_eq_ok_iff.2 ⟨⟨rfl, rfl⟩, by decide +kernel, rfl, .code ⟨[], [], rfl⟩ decode_bytes⟩
  have hmembers : (program extra push).file.methods =
    [(mainMember push).member (Constant.pool (constants extra)), sumMember.member (Constant.pool (constants extra))] := rfl
  have hmethods : MethodTable.ofMembers (program extra push).file.pool "demo/Sum" (program extra push).file.methods =
      .ok [main push first, sum] := by
    rw [MethodTable.ofMembers_eq, hmembers, mapM_cons_ok hmain, mapM_cons_ok hsum]
    rfl
  have hname : (program extra push).file.pool.className (program extra push).file.thisClass = .ok "demo/Sum" := rfl
  have hsuper : Class.readSuperName (program extra push).file.pool (program extra push).file.superClass =
      .ok (some "java/lang/Object") := rfl
  rw [Class.ofFile_eq, hname, hsuper]
  simp only [bind, Except.bind, hmethods]
  rfl

theorem sums_summing (extra : List Constant) (push : Bytes) (first : Instruction Nat) :
    Sums (summing extra push first) sum := by
  constructor <;> rfl

end

/-- A frame of `main`; `v` is in the local that keeps the sum. -/
def mainFrame (extra : List Constant) (push : Bytes) (first : Instruction Nat) (pc : Nat) (stack : List Value)
    (v : Value) : Frame where
  owner := summing extra push first
  method := main push first
  pc := pc
  stack := stack
  locals := #[.null, v]

theorem entry_summing (extra : List Constant) (push : Bytes) (first : Instruction Nat) (order : MethodOrder) :
    (summing extra push first).entry order = .ok (mainFrame extra push first 0 [] .null) := by
  have hmain : (summing extra push first).entryPoint? order = some (main push first) :=
    Class.entryPoint?_of_usual rfl order
  have hstatic : (main push first).isStatic = true := show ((9 : UInt16) &&& 8 != 0) = true by decide
  have hcode : (main push first).code.isNone = false := rfl
  simp only [Class.entry, hmain, hstatic, hcode, Bool.not_true, Bool.or_false, Bool.false_eq_true, if_false]
  rfl

section
variable {files : FileSystem} {m : Machine} {extra : List Constant} {push : Bytes} {first : Instruction Nat}
  {value : Int32} {n : Nat}

open Machine

/-! ## From the start to the first instruction -/

/-- The machine once a class of this name is loaded. -/
def loaded (m : Machine) (c : Class) : Machine :=
  { m with loader := { m.loader with cache := ("demo/Sum", c) :: m.loader.cache } }

theorem Hosted.loaded (h : Hosted files m (program extra push)) (c : Class) : Loaded (loaded m c) c where
  cached := (Loader.cached?_cons m.loader "demo/Sum" "demo/Sum" c).trans (if_pos rfl)
  natives := h.natives

theorem Hosted.prepare_eq (h : Hosted files m (program extra push)) (hc : Compiled extra push value first)
    {className : String} (hname : internalName className = "demo/Sum") (hdepth : 1 ≤ m.calls.limit) :
    ∃ log, prepare files className m = .ok ()
      ((Summing.loaded m (summing extra push first)).holding [mainFrame extra push first 0 [] .null] m.executed log) := by
  obtain ⟨before, root, after, hroots, hread, hearlier⟩ := h.file
  have hfirst : Loader.FirstGives files "demo/Sum" m.loader.roots (summing extra push first) :=
    ⟨before, root, after, hroots, ⟨_, _, hread, hc.parse_eq, hc.ofFile_eq, rfl⟩, hearlier⟩
  have hfresh := h.fresh
  rw [← hname] at hfirst hfresh
  obtain ⟨hresult, hloader⟩ := Loader.search_of_first hfresh hfirst
  have hresolve : (m.loader.resolve files className).result = .ok (summing extra push first) := by
    simp only [Loader.resolve, hresult]
    rfl
  have hkept : (m.loader.resolve files className).loader = (Summing.loaded m (summing extra push first)).loader := by
    rw [Summing.loaded, ← hname]
    exact hloader
  obtain ⟨log, hprepare⟩ := Machine.prepare_eq files className m
  obtain ⟨log', henter⟩ := enter_eq files className (m.put m.loader m.streams [] log)
  have hentered : (m.put m.loader m.streams [] log).entered files className =
      .ok [mainFrame extra push first 0 [] .null] := by
    simp only [entered, put, hresolve, bind, Except.bind, entry_summing]
    exact if_neg (show ¬m.calls.limit ≤ 0 by omega)
  refine ⟨log', ?_⟩
  rw [hprepare, henter, hentered]
  show EStateM.Result.ok () ((m.put m.loader m.streams [] log).put (m.loader.resolve files className).loader
    m.streams _ log') = _
  rw [hkept]
  rfl

/-! ## Through `main` -/

/-- The integer is pushed. -/
theorem Compiled.reaches_pushed (hc : Compiled extra push value first) :
    Reaches files m 1 [mainFrame extra push first 0 [] .null] [mainFrame extra push first 1 [.int value] .null] := by
  have hat : push <+: (push ++ afterPush).drop first.offset := by
    rw [hc.offset]
    exact List.prefix_append push afterPush
  have hfirst : first ∈ mainCode push first := Array.mem_of_getElem? (show (mainCode push first)[0]? = some first from rfl)
  exact reaches_of_stepsTo fun _ _ =>
    hc.pushes.stepsTo (f := mainFrame extra push first 0 [] .null) hc.fits hc.decodes hfirst hat ⟨rfl, rfl⟩ rfl

theorem callsSum_mainFrame (value : Int32) :
    CallsSum (summing extra push first) (mainFrame extra push first 1 [.int value] .null) value [] :=
  ⟨rfl, ⟨_, Frame.fetch?_of_code rfl rfl, rfl, rfl⟩, rfl⟩

/-- What has come back is kept, and pushed again onto the stream that it is printed to. -/
theorem reaches_operands_of_println (hm : Loaded m (summing extra push first)) (s : Int32) :
    Reaches files m 3 [mainFrame extra push first 2 [.int s] .null]
      [mainFrame extra push first 5 [.int s, .stream .stdout] (.int s)] := by
  have hstore : Reaches files m 1 [mainFrame extra push first 2 [.int s] .null]
      [mainFrame extra push first 3 [] (.int s)] :=
    reaches_storeInt (Frame.fetch?_of_code rfl rfl) rfl rfl rfl (Nat.lt_succ_self 1) (List.setIfInBounds_toArray ..)
  have hstream : Reaches files m 1 [mainFrame extra push first 3 [] (.int s)]
      [mainFrame extra push first 4 [.stream .stdout] (.int s)] := by
    refine reaches_getStatic (Frame.fetch?_of_code rfl rfl) rfl ?_
    rw [hm.natives]
    rfl
  have hload : Reaches files m 1 [mainFrame extra push first 4 [.stream .stdout] (.int s)]
      [mainFrame extra push first 5 [.int s, .stream .stdout] (.int s)] :=
    reaches_within (Frame.fetch?_of_code rfl rfl) rfl (Frame.perform_loadInt rfl rfl)
  exact hstore.trans (hstream.trans hload)

/-- The machine after it has printed an integer and a line feed. -/
def printed (m : Machine) (s : Int32) : Machine :=
  { m with streams := m.streams.plus (.on (toString s.toInt ++ "\n") .stdout) }

theorem leads_println (hm : Loaded m (summing extra push first)) (haccept : m.streams.Accept) (s : Int32)
    (executed : Nat) (log : List Event) :
    ∃ log', Leads files 1 (m.holding [mainFrame extra push first 5 [.int s, .stream .stdout] (.int s)] executed log)
      ((printed m s).holding [mainFrame extra push first 6 [] (.int s)] (executed + 1) log') := by
  let call : NativeCall :=
    { receiver := some (.stream .stdout), arguments := [.int s], types := [.primitive .int] }
  have htype : MethodType.ofDescriptor? "(I)V" = some ⟨[.primitive .int], none⟩ := by decide +kernel
  have hat : (mainFrame extra push first 5 [.int s, .stream .stdout] (.int s)).AtCall
      ⟨push.length + 8, .invokevirtual, .index 16⟩ .virtual ⟨"java/io/PrintStream", "println", "(I)V"⟩ call [] :=
    ⟨rfl, rfl, 16, rfl, ⟨rfl, ⟨none, htype⟩, List.forall_mem_singleton.2 rfl⟩, ⟨rfl, rfl, iff_of_true rfl rfl⟩, rfl⟩
  have hlatest : m.natives.latest? (MemberRef.key ⟨"java/io/PrintStream", "println", "(I)V"⟩ .virtual 1) =
      some ⟨.virtual, "java/io/PrintStream", "println", 1, Print.println⟩ := by
    rw [hm.natives]
    rfl
  have haction : Print.println call m.streams = .ok none (printed m s).streams := by
    rw [Print.println_stream, Streams.emit_of_accept haccept]
    rfl
  have hstep := step_of_atCall (m := m.holding [mainFrame extra push first 5 _ _] executed log) rfl hat hlatest files
  exact ⟨_, .one (hstep.trans (congrArg (afterNative _ _ _ _ _) haction))⟩

/-! ## All of it -/

theorem Compiled.leads_program (hc : Compiled extra push (.ofNat n) first) (hm : Loaded m (summing extra push first))
    (haccept : m.streams.Accept) (hn : n < 2 ^ 31) (hroom : n + 2 ≤ m.calls.limit) (executed : Nat) (log : List Event) :
    ∃ log', Leads files (9 * n + 11) (m.holding [mainFrame extra push first 0 [] .null] executed log)
      ((printed m (total n)).holding [] (executed + (9 * n + 11)) log') := by
  have hsums := sums_summing extra push first
  have hcall : Reaches files m 1 [mainFrame extra push first 1 [.int (.ofNat n)] .null]
      [frame (summing extra push first) sum 0 [] (.ofNat n), mainFrame extra push first 2 [] .null] :=
    hsums.reaches_call hm (callsSum_mainFrame _) (by rw [List.length_nil]; omega)
  have hsum : Reaches files m (9 * n + 4)
      [frame (summing extra push first) sum 0 [] (.ofNat n), mainFrame extra push first 2 [] .null]
      [mainFrame extra push first 2 [.int (total n)] .null] :=
    hsums.reaches_sum hm n hn (by rw [List.length_nil]; omega)
  obtain ⟨log₁, hcomputed⟩ :=
    (hc.reaches_pushed.trans <| hcall.trans <| hsum.trans <| reaches_operands_of_println hm (total n)) executed log
  obtain ⟨log₂, hprinted⟩ := leads_println hm haccept (total n) _ log₁
  have hend : Reaches files (printed m (total n)) 1 [mainFrame extra push first 6 [] (.int (total n))] [] :=
    reaches_returnVoid (Frame.fetch?_of_code rfl rfl) rfl
  obtain ⟨log₃, hended⟩ := hend _ log₂
  refine ⟨log₃, ?_⟩
  have hcount : 1 + (1 + (9 * n + 4 + 3)) + (1 + 1) = 9 * n + 11 := by omega
  rw [← hcount, ← Nat.add_assoc executed, ← Nat.add_assoc]
  exact hcomputed.trans (hprinted.trans hended)

theorem Compiled.breaks_program (hc : Compiled extra push (.ofNat n) first) (hm : Loaded m (summing extra push first))
    (hn : n < 2 ^ 31) (hdepth : 1 ≤ m.calls.limit) (hfull : m.calls.limit < n + 2) :
    ∃ k ≤ 7 * n + 2, ∃ frames, frames.length = m.calls.limit ∧
      Breaks files m k [mainFrame extra push first 0 [] .null] (.stackOverflow m.calls.limit) frames := by
  have hsums := sums_summing extra push first
  by_cases hroom : 1 < m.calls.limit
  · have hcall : Reaches files m 1 [mainFrame extra push first 1 [.int (.ofNat n)] .null]
        [frame (summing extra push first) sum 0 [] (.ofNat n), mainFrame extra push first 2 [] .null] :=
      hsums.reaches_call hm (callsSum_mainFrame _) hroom
    have hsum : ∃ k ≤ 7 * n, ∃ frames, frames.length = m.calls.limit ∧ Breaks files m k
        [frame (summing extra push first) sum 0 [] (.ofNat n), mainFrame extra push first 2 [] .null]
        (.stackOverflow m.calls.limit) frames :=
      hsums.breaks_sum hm n hn hroom (by rw [List.length_singleton]; omega)
    obtain ⟨k, hk, frames, hlength, hbreaks⟩ := hsum
    exact ⟨1 + (1 + k), by omega, frames, hlength, hc.reaches_pushed.breaks (hcall.breaks hbreaks)⟩
  · have hbreaks : Breaks files m 0 [mainFrame extra push first 1 [.int (.ofNat n)] .null] _ _ :=
      hsums.breaks_call hm (callsSum_mainFrame _) (by rw [List.length_nil]; omega)
    exact ⟨1, by omega, _, by rw [List.length_singleton]; omega, hc.reaches_pushed.breaks hbreaks⟩

end

end Summing

/-- **A method that calls itself**, from the file of its class on. If there is room for the frames of all
calls, and these are those of `main` and of `sum` for each number from `n` down to zero, then the program
comes to its end, and has printed the sum. If there is not, it fails at the first call that there is no room
for, with all frames that there is room for, and has printed nothing. -/
theorem start_sums_or_overflows {files : FileSystem} {m : Machine} {className : String} {extra : List Constant}
    {push : Bytes} {n limit : Nat} (hn : n < 2 ^ 31) (hfits : (Summing.program extra push).Fits)
    (hpush : Written.Pushes (Summing.constants extra) (.ofNat n) push)
    (hosted : Summing.Hosted files m (Summing.program extra push)) (hname : internalName className = "demo/Sum")
    (hdepth : 1 ≤ m.calls.limit) (hlimit : 9 * n + 11 < limit) :
    (n + 2 ≤ m.calls.limit → ∃ result m', Machine.start files className limit m = .ok () m' ∧
      Wraps (n * (n + 1) / 2 : Nat) result ∧
      m'.streams = m.streams.plus (.on (toString result.toInt ++ "\n") .stdout) ∧ m'.calls.frames = [] ∧
      m'.executed = m.executed + (9 * n + 11)) ∧
    (m.calls.limit < n + 2 → ∃ m',
      Machine.start files className limit m = .error (.failed (.stackOverflow m.calls.limit)) m' ∧
      m'.streams = m.streams ∧ m'.calls.depth = m.calls.limit) := by
  obtain ⟨first, hcompiled⟩ := Summing.exists_compiled hfits hpush
  obtain ⟨log, hprepare⟩ := hosted.prepare_eq hcompiled hname hdepth
  have hstart : Machine.start files className limit m = _ := bind_of_ok hprepare
  have hloaded := hosted.loaded (Summing.summing extra push first)
  rw [hstart]
  constructor
  · intro hroom
    obtain ⟨log', hleads⟩ := hcompiled.leads_program hloaded hosted.accept hn hroom m.executed log
    obtain ⟨log'', hrun⟩ := hleads.run_of_empty rfl hlimit
    exact ⟨Summing.total n, _, hrun, wraps_ofNat _, rfl, rfl, rfl⟩
  · intro hfull
    obtain ⟨k, hk, frames, hlength, hbreaks⟩ := hcompiled.breaks_program hloaded hn hdepth hfull
    obtain ⟨last, log', hleads, hstop⟩ := hbreaks m.executed log
    exact ⟨_, hleads.run_of_error hstop (by omega), rfl, hlength⟩

namespace Summing

/-- Any integer can be pushed from a constant after the others. -/
theorem pushes_constant (value : Int32) : Written.Pushes (constants [.integer value]) value [0x12, 24] := by
  have hslot : Constant.slotOf (constants [.integer value]) 23 = 24 := by cbv
  have hconstant : (constants [.integer value])[23]? = some (.integer value) := rfl
  refine .constant hconstant ?_
  rw [hslot]
  exact Encoding.ldc 24

theorem fits_constant (value : Int32) : (program [.integer value] [0x12, 24]).Fits := by
  have hslots : Constant.slotOf (constants [.integer value]) 24 = 25 := by cbv
  have hname : (Constant.pool (constants [.integer value]))[21]? = some (.utf8 "Code") := rfl
  constructor
  case constants =>
    have hfixed : ∀ c ∈ constants [], c.Fits := by decide
    exact List.forall_mem_append.2 ⟨hfixed, List.forall_mem_singleton.2 trivial⟩
  case slots =>
    show Constant.slotOf (constants [.integer value]) 24 < 65536
    omega
  case eachField => exact List.forall_mem_nil _
  case eachMethod =>
    show ∀ m ∈ [mainMember [0x12, 24], sumMember], m.Fits (Constant.pool (constants [.integer value]))
    simp [mainMember, sumMember, Written.Member.Fits, Written.AttributesFit, Written.Attribute.Fits, hname, afterPush,
      bytes]
  case eachAttribute => exact trivial
  case methods => exact show 2 < 65536 by decide
  all_goals exact show 0 < 65536 by decide

end Summing

namespace Sample

/-- A machine with one root, and room for so many frames. -/
def summingMachine (frames : Nat) : Machine where
  loader := { roots := ["r"] }
  calls := { limit := frames }

def summingFiles : FileSystem :=
  .ofRecord [("r/demo/Sum.class", .ok (Summing.program [.integer 100000] [0x12, 24]).write)]

theorem hosted_summing (frames : Nat) :
    Summing.Hosted summingFiles (summingMachine frames) (Summing.program [.integer 100000] [0x12, 24]) where
  fresh := rfl
  file := by
    have hpath : Path.classFile "r" "demo/Sum" = "r/demo/Sum.class" := by decide +kernel
    refine ⟨[], "r", [], rfl, ?_, nofun⟩
    rw [hpath]
    rfl
  natives := rfl
  accept handle := by cases handle <;> exact ⟨rfl, rfl⟩

end Sample

/-- The sum of the numbers up to 100000 does not fit, and there is just room for it, or room for one frame
less. -/
theorem start_sums_or_overflows_100000 :
    (∃ m', Machine.start Sample.summingFiles "demo.Sum" 900012 (Sample.summingMachine 100002) = .ok () m' ∧
      m'.streams.out.written = "705082704\n" ∧ m'.calls.frames = [] ∧ m'.executed = 900011) ∧
    ∃ m', Machine.start Sample.summingFiles "demo.Sum" 900012 (Sample.summingMachine 100001) =
        .error (.failed (.stackOverflow 100001)) m' ∧ m'.streams = {} ∧ m'.calls.depth = 100001 := by
  have hname : internalName "demo.Sum" = "demo/Sum" := by decide +kernel
  have hpush : Written.Pushes (Summing.constants [.integer 100000]) (.ofNat 100000) [0x12, 24] :=
    Summing.pushes_constant 100000
  constructor
  · obtain ⟨result, m', hstart, hresult, hstreams, hframes, hexecuted⟩ :=
      (start_sums_or_overflows (by decide) (Summing.fits_constant 100000) hpush (Sample.hosted_summing 100002) hname
        (by decide) (show 9 * 100000 + 11 < 900012 by decide)).1 (by decide)
    -- the sum is 5000050000, which is this modulo 2³²
    obtain rfl : 705082704 = result := (hresult 705082704).1 rfl
    exact ⟨m', hstart, by rw [hstreams]; rfl, hframes, hexecuted⟩
  · obtain ⟨m', hstart, hstreams, hdepth⟩ :=
      (start_sums_or_overflows (by decide) (Summing.fits_constant 100000) hpush (Sample.hosted_summing 100001) hname
        (by decide) (show 9 * 100000 + 11 < 900012 by decide)).2 (by decide)
    exact ⟨m', hstart, hstreams, hdepth⟩

end Jvm
