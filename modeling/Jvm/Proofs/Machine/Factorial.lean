import Jvm.Proofs.Machine.Arithmetic
import Jvm.Proofs.Machine.Steps

/-!
# A loop that multiplies

`fact(I)I` counts its argument down to zero and multiplies as it goes. What it has still to multiply is the
factorial of its counter, in each round (`reaches_rounds`); all sums and products are modulo 2³², so this
is right for any argument. Main theorem `factorial_returned`: the call of such a method.
-/

namespace Jvm

namespace Factorial

/-- The body of `fact(I)I`, where local 0 is the counter, and local 1 the product. -/
def bytes : Bytes := [
  0x04, 0x3c,
  -- out of the loop, to the load at 16, if the counter is not above zero
  0x1a, 0x9e, 0x00, 0x0d,
  0x1b, 0x1a, 0x68, 0x3c, 0x84, 0x00, 0xff,
  -- back to the test at 2
  0xa7, 0xff, 0xf5,
  0x1b, 0xac]

/-- What is decoded: the branches aim at instructions 10 and 2. -/
def code : Code := #[
  ⟨0, .iconst1, .int 1⟩, ⟨1, .istore1, .slot 1⟩, ⟨2, .iload0, .slot 0⟩, ⟨3, .ifle, .branch 10⟩,
  ⟨6, .iload1, .slot 1⟩, ⟨7, .iload0, .slot 0⟩, ⟨8, .imul, .none⟩, ⟨9, .istore1, .slot 1⟩,
  ⟨10, .iinc, .increment 0 (-1)⟩, ⟨13, .goto, .branch 2⟩, ⟨16, .iload1, .slot 1⟩, ⟨17, .ireturn, .none⟩]

theorem decode_bytes : Code.decode bytes = .ok code := by cbv

/-- The method has this body, takes one integer, and has room for both locals. -/
structure IsFactorial (method : Method) : Prop where
  code : ∃ code, Code.decode bytes = .ok code ∧ method.code = some code
  type : MethodType.ofDescriptor? "(I)I" = some method.type
  room : 2 ≤ method.maxLocals.toNat

/-- A frame of the method. -/
def frame (owner : Class) (method : Method) (others : List Value) (pc : Nat) (stack : List Value) (n : Int32)
    (product : Value) : Frame where
  owner := owner
  method := method
  pc := pc
  stack := stack
  locals := (.int n :: product :: others).toArray

/-- The arguments of a call. -/
theorem IsFactorial.frame_ofCall {method : Method} (h : IsFactorial method) (owner : Class) (n : Int32) :
    ∃ others, Frame.ofCall owner method [.int n] = frame owner method others 0 [] n .null := by
  obtain ⟨spare, hspare⟩ := Nat.exists_eq_add_of_le h.room
  have hrest : method.maxLocals.toNat - 1 = spare + 1 := by omega
  refine ⟨.replicate spare .null, ?_⟩
  rw [Frame.ofCall, List.length_singleton, hrest, List.replicate_succ]
  rfl

section
variable {files : FileSystem} {m : Machine} {owner : Class} {method : Method} {others : List Value} {caller : Frame}
  {below : List Frame} {n r : Int32}

open Machine

/-- One round: the counter is above zero. -/
theorem reaches_round (hcode : method.code = some code) (hn : 0 < n.toInt) :
    Reaches files m 8 (frame owner method others 2 [] n (.int r) :: below)
      (frame owner method others 2 [] (n + -1) (.int (r * n)) :: below) := by
  have hcounter : Reaches files m 1 (frame owner method others 2 [] n (.int r) :: below)
      (frame owner method others 3 [.int n] n (.int r) :: below) :=
    reaches_within (Frame.fetch?_of_code hcode rfl) rfl (Frame.perform_loadInt rfl rfl)
  have htest : Reaches files m 1 (frame owner method others 3 [.int n] n (.int r) :: below)
      (frame owner method others 4 [] n (.int r) :: below) :=
    (reaches_of_branches (Opcode.branches_zero .le n) (Frame.fetch?_of_code hcode rfl) rfl rfl).2 (Int.not_le.2 hn)
  have hproduct : Reaches files m 1 (frame owner method others 4 [] n (.int r) :: below)
      (frame owner method others 5 [.int r] n (.int r) :: below) :=
    reaches_within (Frame.fetch?_of_code hcode rfl) rfl (Frame.perform_loadInt rfl rfl)
  have hfactor : Reaches files m 1 (frame owner method others 5 [.int r] n (.int r) :: below)
      (frame owner method others 6 [.int n, .int r] n (.int r) :: below) :=
    reaches_within (Frame.fetch?_of_code hcode rfl) rfl (Frame.perform_loadInt rfl rfl)
  have hmul : Reaches files m 1 (frame owner method others 6 [.int n, .int r] n (.int r) :: below)
      (frame owner method others 7 [.int (r * n)] n (.int r) :: below) :=
    reaches_within (Frame.fetch?_of_code hcode rfl) rfl (Frame.perform_arithmetic .mul rfl)
  have hstore : Reaches files m 1 (frame owner method others 7 [.int (r * n)] n (.int r) :: below)
      (frame owner method others 8 [] n (.int (r * n)) :: below) :=
    reaches_storeInt (Frame.fetch?_of_code hcode rfl) rfl rfl rfl (Nat.succ_lt_succ (Nat.succ_pos _))
      (List.setIfInBounds_toArray ..)
  have hcount : Reaches files m 1 (frame owner method others 8 [] n (.int (r * n)) :: below)
      (frame owner method others 9 [] (n + -1) (.int (r * n)) :: below) := by
    refine reaches_within (Frame.fetch?_of_code hcode rfl) rfl ((Frame.perform_increment rfl rfl).trans ?_)
    simp only [Frame.moved, frame, List.setIfInBounds_toArray]
    rfl
  have hback : Reaches files m 1 (frame owner method others 9 [] (n + -1) (.int (r * n)) :: below)
      (frame owner method others 2 [] (n + -1) (.int (r * n)) :: below) :=
    reaches_within (Frame.fetch?_of_code hcode rfl) rfl (Frame.perform_goto rfl)
  exact hcounter.trans <| htest.trans <| hproduct.trans <| hfactor.trans <| hmul.trans <| hstore.trans <|
    hcount.trans hback

/-- All rounds: what is left to multiply is the factorial of the counter. -/
theorem reaches_rounds (hcode : method.code = some code) (k : Nat) (hn : n.toInt = k) :
    Reaches files m (8 * k) (frame owner method others 2 [] n (.int r) :: below)
      (frame owner method others 2 [] 0 (.int (r * .ofNat k.factorial)) :: below) := by
  induction k generalizing n r with
  | zero =>
    obtain rfl : n = 0 := Int32.toInt_inj.1 hn
    rw [Nat.factorial_zero, show Int32.ofNat 1 = 1 from rfl, Int32.mul_one]
    exact .here
  | succ k ih =>
    have hpred : (n + -1).toInt = k := by
      have hlt := n.toInt_lt
      rw [Int32.toInt_add, hn, show (-1 : Int32).toInt = -1 from rfl]
      exact (Int.bmod_eq_of_le (by omega) (by omega)).trans (by omega)
    have hfactor : r * n * .ofNat k.factorial = r * .ofNat (k + 1).factorial := by
      have hcounter : n = .ofNat (k + 1) := by rw [← Int32.ofInt_toInt n, hn, Int32.ofInt_eq_ofNat]
      rw [Nat.factorial_succ, Int32.ofNat_mul, ← hcounter, Int32.mul_assoc]
    have hround : Reaches files m 8 (frame owner method others 2 [] n (.int r) :: below) _ :=
      reaches_round hcode (by omega)
    have hrest := ih (r := r * n) hpred
    rw [hfactor] at hrest
    rw [Nat.mul_succ, Nat.add_comm]
    exact hround.trans hrest

/-- The counter is not above zero any more, and the product is returned. -/
theorem reaches_end (hcode : method.code = some code) (hn : n.toInt ≤ 0) :
    Reaches files m 4 (frame owner method others 2 [] n (.int r) :: caller :: below) (caller.pushed (.int r) :: below) := by
  have hcounter : Reaches files m 1 (frame owner method others 2 [] n (.int r) :: caller :: below)
      (frame owner method others 3 [.int n] n (.int r) :: caller :: below) :=
    reaches_within (Frame.fetch?_of_code hcode rfl) rfl (Frame.perform_loadInt rfl rfl)
  have htest : Reaches files m 1 (frame owner method others 3 [.int n] n (.int r) :: caller :: below)
      (frame owner method others 10 [] n (.int r) :: caller :: below) :=
    (reaches_of_branches (Opcode.branches_zero .le n) (Frame.fetch?_of_code hcode rfl) rfl rfl).1 hn
  have hproduct : Reaches files m 1 (frame owner method others 10 [] n (.int r) :: caller :: below)
      (frame owner method others 11 [.int r] n (.int r) :: caller :: below) :=
    reaches_within (Frame.fetch?_of_code hcode rfl) rfl (Frame.perform_loadInt rfl rfl)
  have hreturn : Reaches files m 1 (frame owner method others 11 [.int r] n (.int r) :: caller :: below)
      (caller.pushed (.int r) :: below) :=
    reaches_returnInt (Frame.fetch?_of_code hcode rfl) rfl rfl
  exact hcounter.trans <| htest.trans <| hproduct.trans hreturn

/-- The product starts at one. -/
theorem reaches_start (hcode : method.code = some code) (v : Value) :
    Reaches files m 2 (frame owner method others 0 [] n v :: below) (frame owner method others 2 [] n (.int 1) :: below) := by
  have hone : Reaches files m 1 (frame owner method others 0 [] n v :: below)
      (frame owner method others 1 [.int 1] n v :: below) :=
    reaches_within (Frame.fetch?_of_code hcode rfl) rfl (Frame.perform_pushInt rfl)
  have hstore : Reaches files m 1 (frame owner method others 1 [.int 1] n v :: below)
      (frame owner method others 2 [] n (.int 1) :: below) :=
    reaches_storeInt (Frame.fetch?_of_code hcode rfl) rfl rfl rfl (Nat.succ_lt_succ (Nat.succ_pos _))
      (List.setIfInBounds_toArray ..)
  exact hone.trans hstore

/-- A negative argument has no rounds, and so is like zero. -/
theorem reaches_return (hcode : method.code = some code) (v : Value) :
    Reaches files m (8 * n.toInt.toNat + 6) (frame owner method others 0 [] n v :: caller :: below)
      (caller.pushed (.int (.ofNat n.toInt.toNat.factorial)) :: below) := by
  by_cases hn : 0 ≤ n.toInt
  · have hrounds : Reaches files m (8 * n.toInt.toNat) (frame owner method others 2 [] n (.int 1) :: caller :: below) _ :=
      reaches_rounds hcode _ (Int.toNat_of_nonneg hn).symm
    rw [Int32.one_mul] at hrounds
    have hcount : 2 + (8 * n.toInt.toNat + 4) = 8 * n.toInt.toNat + 6 := by omega
    rw [← hcount]
    exact (reaches_start hcode v).trans (hrounds.trans (reaches_end hcode (by decide)))
  · have hnone : n.toInt.toNat = 0 := Int.toNat_of_nonpos (by omega)
    rw [hnone]
    exact (reaches_start hcode v).trans (reaches_end hcode (by omega))

end

end Factorial

/-- **A loop that multiplies.** A static call of the method, with an integer on top of the stack, comes back
after a number of steps, all of which succeed. The caller goes on with the factorial in place of the
argument, or with one if the argument is negative, and all else is as it was, but for the classes that the
call had to load. -/
theorem factorial_returned {files : FileSystem} {m : Machine} {f : Frame} {below : List Frame} {index : UInt16}
    {target : MemberRef} {owner : Class} {method : Method} {n : Int32} {rest : List Value}
    (hat : m.AtStaticCall f below index)
    (hcallable : m.Callable files f index target [.primitive .int] owner method)
    (hfactorial : Factorial.IsFactorial method) (hstack : f.stack = .int n :: rest) :
    ∃ result log, Machine.Leads files (8 * n.toInt.toNat + 7) m
        { m.put (m.loader.findMethod files target).loader m.streams
            ({ f.moved with stack := .int result :: rest } :: below) log with
          executed := m.executed + (8 * n.toInt.toNat + 7) } ∧
      (0 ≤ n.toInt → Wraps n.toInt.toNat.factorial result) ∧ (n.toInt < 0 → result = 1) := by
  obtain ⟨code, hdecode, hcode⟩ := hfactorial.code
  cases Factorial.decode_bytes.symm.trans hdecode
  have htype : MethodType.ofDescriptor? "(I)I" = some ⟨[.primitive .int], some (.primitive .int)⟩ := by decide +kernel
  have hcount : method.argumentCount = 1 := by
    rw [Method.argumentCount, ← Option.some.inj (htype.symm.trans hfactorial.type)]
    rfl
  obtain ⟨log, hcall⟩ := hat.step_of_count hcount hcallable
  obtain ⟨others, hframe⟩ := hfactorial.frame_ofCall owner n
  have hstack' : f.moved.stack = .int n :: rest := hstack
  rw [show [FieldType.primitive .int].length = 1 from rfl, (Frame.operands_one hstack).1,
    (Frame.operands_one hstack').2, hframe] at hcall
  have hreturn : Machine.Reaches files (m.put (m.loader.findMethod files target).loader m.streams [] []) _
      (Factorial.frame owner method others 0 [] n .null :: { f.moved with stack := rest } :: below) _ :=
    Factorial.reaches_return hcode .null
  obtain ⟨log', hleads⟩ := hreturn (m.executed + 1) log
  rw [Nat.add_right_comm] at hleads
  refine ⟨_, log', .step hcall hleads, fun _ => wraps_ofNat _, fun hn => ?_⟩
  rw [Int.toNat_of_nonpos (by omega)]
  rfl

namespace Sample

def fact : Method := ⟨"fact", "(I)I", 9, ⟨[.primitive .int], some (.primitive .int)⟩, 2, 2, some Factorial.code⟩

/-- A class whose method 6 this is. -/
def multiplier : Class where
  name := "T"
  superName := none
  pool := ⟨#[.unusable, .utf8 "T", .classRef 1, .utf8 "fact", .utf8 "(I)I", .nameAndType 3 4, .methodRef 2 5]⟩
  methods := [fact]

/-- A frame that calls it with 5. -/
def multiplying : Frame where
  owner := multiplier
  method := ⟨"main", "()V", 9, ⟨[], none⟩, 2, 0, some #[⟨0, .invokestatic, .index 6⟩]⟩
  stack := [.int 5, .int 9]
  locals := #[]

/-- A machine with room for one more frame. -/
def multiplyingMachine : Machine where
  loader := ⟨[], [("T", multiplier)]⟩
  calls := ⟨[multiplying], 2⟩

end Sample

/-- The factorial of 5 comes to stand on the caller's other operand. -/
theorem factorial_returned_five :
    Sample.multiplyingMachine.AtStaticCall Sample.multiplying [] 6 ∧
      ∃ log, Machine.Leads (.ofRecord []) 47 Sample.multiplyingMachine
        { Sample.multiplyingMachine.put Sample.multiplyingMachine.loader {}
            [{ Sample.multiplying.moved with stack := [.int 120, .int 9] }] log with executed := 47 } := by
  have hnames : Sample.multiplying.Names 6 ⟨"T", "fact", "(I)I"⟩ [.primitive .int] :=
    ⟨rfl, ⟨some (.primitive .int), by decide +kernel⟩, by decide⟩
  have hat : Sample.multiplyingMachine.AtStaticCall Sample.multiplying [] 6 := by
    refine ⟨rfl, ⟨_, rfl, rfl, rfl⟩, fun target types hother => ?_⟩
    obtain ⟨rfl, rfl⟩ := hnames.unique hother
    rfl
  have hresolves : Sample.multiplyingMachine.loader.Resolves (.ofRecord []) ⟨"T", "fact", "(I)I"⟩
      (.ok (Sample.multiplier, Sample.fact)) := Loader.findMethod_eq_ok_iff.1 rfl
  have hcallable : Sample.multiplyingMachine.Callable (.ofRecord []) Sample.multiplying 6 ⟨"T", "fact", "(I)I"⟩
      [.primitive .int] Sample.multiplier Sample.fact :=
    ⟨hnames, hresolves, rfl, rfl, by decide, by decide⟩
  have hfactorial : Factorial.IsFactorial Sample.fact := ⟨⟨_, Factorial.decode_bytes, rfl⟩, by decide +kernel, by decide⟩
  obtain ⟨result, log, hleads, hresult, -⟩ := factorial_returned hat hcallable hfactorial rfl
  obtain rfl : 120 = result := (hresult (by decide) 120).1 rfl
  exact ⟨hat, log, hleads⟩

end Jvm
