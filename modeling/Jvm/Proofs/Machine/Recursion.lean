import Jvm.Proofs.Machine.Steps
import Jvm.Proofs.Print

/-!
# A method that calls itself

`sum(I)I` adds its argument to the sum for the number before it. Each call leaves a frame behind that holds
its argument as an operand, and so the frames of the calls under way are as many as the argument and one
more. If there is room for them, the sum is returned (`Sums.reaches_sum`), and if there is not, the call
fails that has no room (`Sums.breaks_sum`). Both are by induction on the argument, for any frames below.
-/

namespace Jvm

namespace Summing

/-- The body of `sum(I)I`, in a class where slot 20 is this method. -/
def bytes : Bytes := [
  -- to the zero at 13, if the argument is not above zero
  0x1a, 0x9e, 0x00, 0x0c,
  0x1a, 0x1a, 0x04, 0x64, 0xb8, 0x00, 0x14, 0x60, 0xac,
  0x03, 0xac]

def code : Code := #[
  ⟨0, .iload0, .slot 0⟩, ⟨1, .ifle, .branch 9⟩, ⟨4, .iload0, .slot 0⟩, ⟨5, .iload0, .slot 0⟩, ⟨6, .iconst1, .int 1⟩,
  ⟨7, .isub, .none⟩, ⟨8, .invokestatic, .index 20⟩, ⟨11, .iadd, .none⟩, ⟨12, .ireturn, .none⟩,
  ⟨13, .iconst0, .int 0⟩, ⟨14, .ireturn, .none⟩]

theorem decode_bytes : Code.decode bytes = .ok code := by cbv

/-- The method in slot 20. -/
def target : MemberRef := ⟨"demo/Sum", "sum", "(I)I"⟩

/-- The class has the method, under its name and in slot 20. -/
structure Sums (c : Class) (method : Method) : Prop where
  found : c.method? "sum" "(I)I" = some method
  reference : c.pool.method 20 = .ok target
  code : method.code = some code
  static : method.isStatic = true
  count : method.argumentCount = 1
  locals : method.maxLocals = 1

/-- The class is loaded, and the native methods are the standard ones, of which none is static. -/
structure Loaded (m : Machine) (c : Class) : Prop where
  cached : m.loader.cached? "demo/Sum" = some c
  natives : m.natives = .standard

/-- A frame of the method. -/
def frame (c : Class) (method : Method) (pc : Nat) (stack : List Value) (n : Int32) : Frame where
  owner := c
  method := method
  pc := pc
  stack := stack
  locals := #[.int n]

section
variable {files : FileSystem} {m : Machine} {c : Class} {method : Method} {f caller : Frame} {below : List Frame}
  {n s : Int32} {rest : List Value}

open Machine

theorem Sums.ofCall_eq (h : Sums c method) (n : Int32) : Frame.ofCall c method [.int n] = frame c method 0 [] n := by
  rw [Frame.ofCall, h.locals]
  rfl

/-! ## The call -/

/-- The frame is about to call the method with `n`, and keeps the operands below it. -/
structure CallsSum (c : Class) (f : Frame) (n : Int32) (rest : List Value) : Prop where
  owner : f.owner = c
  next : ∃ inst, f.fetch? = .ok inst ∧ inst.opcode = .invokestatic ∧ inst.operand = .index 20
  stack : f.stack = .int n :: rest

theorem Sums.atLoadedCall (h : Sums c method) (hm : Loaded m c) (hf : CallsSum c f n rest) :
    m.AtLoadedCall f 20 target [.primitive .int] c method where
  next := hf.next
  bytecode target types _ := by rw [hm.natives, NativeTable.standard_method?_static]
  names := ⟨hf.owner ▸ h.reference, ⟨some (.primitive .int), by decide +kernel⟩, by decide⟩
  cached := by
    rw [show internalName target.owner = "demo/Sum" by decide +kernel]
    exact hm.cached
  found := h.found
  static := h.static
  code := by rw [h.code]; rfl
  count := h.count
  operands := by rw [hf.stack]; exact Nat.succ_pos _

theorem Sums.reaches_call (h : Sums c method) (hm : Loaded m c) (hf : CallsSum c f n rest)
    (hroom : below.length + 1 < m.calls.limit) :
    Reaches files m 1 (f :: below) (frame c method 0 [] n :: { f.moved with stack := rest } :: below) := by
  have hcall : Reaches files m 1 (f :: below) _ := (h.atLoadedCall hm hf).reaches hroom
  have hstack : f.moved.stack = .int n :: rest := hf.stack
  rwa [show [FieldType.primitive .int].length = 1 from rfl, (Frame.operands_one hf.stack).1,
    (Frame.operands_one hstack).2, h.ofCall_eq] at hcall

theorem Sums.breaks_call (h : Sums c method) (hm : Loaded m c) (hf : CallsSum c f n rest)
    (hfull : m.calls.limit ≤ below.length + 1) :
    Breaks files m 0 (f :: below) (.stackOverflow m.calls.limit) ({ f.moved with stack := rest } :: below) := by
  have hcall : Breaks files m 0 (f :: below) _ _ := (h.atLoadedCall hm hf).breaks hfull
  have hstack : f.moved.stack = .int n :: rest := hf.stack
  rwa [show [FieldType.primitive .int].length = 1 from rfl, (Frame.operands_one hstack).2] at hcall

/-! ## One level -/

/-- Up to the call: the argument is above zero. -/
theorem reaches_operands (hcode : method.code = some code) (hn : 0 < n.toInt) :
    Reaches files m 6 (frame c method 0 [] n :: below) (frame c method 6 [.int (n - 1), .int n] n :: below) := by
  have htested : Reaches files m 1 (frame c method 0 [] n :: below) (frame c method 1 [.int n] n :: below) :=
    reaches_within (Frame.fetch?_of_code hcode rfl) rfl (Frame.perform_loadInt rfl rfl)
  have htest : Reaches files m 1 (frame c method 1 [.int n] n :: below) (frame c method 2 [] n :: below) :=
    (reaches_of_branches (Opcode.branches_zero .le n) (Frame.fetch?_of_code hcode rfl) rfl rfl).2 (Int.not_le.2 hn)
  have hkept : Reaches files m 1 (frame c method 2 [] n :: below) (frame c method 3 [.int n] n :: below) :=
    reaches_within (Frame.fetch?_of_code hcode rfl) rfl (Frame.perform_loadInt rfl rfl)
  have hagain : Reaches files m 1 (frame c method 3 [.int n] n :: below)
      (frame c method 4 [.int n, .int n] n :: below) :=
    reaches_within (Frame.fetch?_of_code hcode rfl) rfl (Frame.perform_loadInt rfl rfl)
  have hone : Reaches files m 1 (frame c method 4 [.int n, .int n] n :: below)
      (frame c method 5 [.int 1, .int n, .int n] n :: below) :=
    reaches_within (Frame.fetch?_of_code hcode rfl) rfl (Frame.perform_pushInt rfl)
  have hsub : Reaches files m 1 (frame c method 5 [.int 1, .int n, .int n] n :: below)
      (frame c method 6 [.int (n - 1), .int n] n :: below) :=
    reaches_within (Frame.fetch?_of_code hcode rfl) rfl (Frame.perform_arithmetic .sub rfl)
  exact htested.trans <| htest.trans <| hkept.trans <| hagain.trans <| hone.trans hsub

/-- From the return of the call on. -/
theorem reaches_result (hcode : method.code = some code) :
    Reaches files m 2 (frame c method 7 [.int s, .int n] n :: caller :: below) (caller.pushed (.int (n + s)) :: below) := by
  have hadd : Reaches files m 1 (frame c method 7 [.int s, .int n] n :: caller :: below)
      (frame c method 8 [.int (n + s)] n :: caller :: below) :=
    reaches_within (Frame.fetch?_of_code hcode rfl) rfl (Frame.perform_arithmetic .add rfl)
  have hreturn : Reaches files m 1 (frame c method 8 [.int (n + s)] n :: caller :: below)
      (caller.pushed (.int (n + s)) :: below) := reaches_returnInt (Frame.fetch?_of_code hcode rfl) rfl rfl
  exact hadd.trans hreturn

/-- The last call: the argument is not above zero. -/
theorem reaches_zero (hcode : method.code = some code) (hn : n.toInt ≤ 0) :
    Reaches files m 4 (frame c method 0 [] n :: caller :: below) (caller.pushed (.int 0) :: below) := by
  have htested : Reaches files m 1 (frame c method 0 [] n :: caller :: below)
      (frame c method 1 [.int n] n :: caller :: below) :=
    reaches_within (Frame.fetch?_of_code hcode rfl) rfl (Frame.perform_loadInt rfl rfl)
  have htest : Reaches files m 1 (frame c method 1 [.int n] n :: caller :: below)
      (frame c method 9 [] n :: caller :: below) :=
    (reaches_of_branches (Opcode.branches_zero .le n) (Frame.fetch?_of_code hcode rfl) rfl rfl).1 hn
  have hzero : Reaches files m 1 (frame c method 9 [] n :: caller :: below)
      (frame c method 10 [.int 0] n :: caller :: below) :=
    reaches_within (Frame.fetch?_of_code hcode rfl) rfl (Frame.perform_pushInt rfl)
  have hreturn : Reaches files m 1 (frame c method 10 [.int 0] n :: caller :: below)
      (caller.pushed (.int 0) :: below) := reaches_returnInt (Frame.fetch?_of_code hcode rfl) rfl rfl
  exact htested.trans <| htest.trans <| hzero.trans hreturn

/-! ## All levels -/

/-- The sum of the first numbers, as a word. -/
def total (n : Nat) : Int32 := .ofNat (n * (n + 1) / 2)

theorem ofNat_add_total (n : Nat) : .ofNat (n + 1) + total n = total (n + 1) := by
  have hdouble : (n + 1) * (n + 1 + 1) = n * (n + 1) + (n + 1) * 2 := by ring
  rw [total, total, ← Int32.ofNat_add, hdouble, Nat.add_mul_div_right _ _ (by decide), Nat.add_comm]

theorem ofNat_succ_sub_one (n : Nat) : Int32.ofNat (n + 1) - 1 = .ofNat n := by
  rw [Int32.ofNat_add]
  exact Int32.add_sub_cancel _ _

theorem reaches_argument (hcode : method.code = some code) (n : Nat) (hn : n + 1 < 2 ^ 31) :
    Reaches files m 6 (frame c method 0 [] (.ofNat (n + 1)) :: below)
      (frame c method 6 [.int (.ofNat n), .int (.ofNat (n + 1))] (.ofNat (n + 1)) :: below) := by
  have hpos : 0 < (Int32.ofNat (n + 1)).toInt := by rw [Int32.toInt_ofNat_of_lt hn]; omega
  have hoperands : Reaches files m 6 (frame c method 0 [] (.ofNat (n + 1)) :: below) _ := reaches_operands hcode hpos
  rwa [ofNat_succ_sub_one] at hoperands

theorem callsSum_frame (hcode : method.code = some code) (n : Nat) :
    CallsSum c (frame c method 6 [.int (.ofNat n), .int (.ofNat (n + 1))] (.ofNat (n + 1))) (.ofNat n)
      [.int (.ofNat (n + 1))] :=
  ⟨rfl, ⟨_, Frame.fetch?_of_code hcode rfl, rfl, rfl⟩, rfl⟩

/-- Up to the call of the next level, and into it if there is room for its frame. -/
theorem Sums.reaches_level (h : Sums c method) (hm : Loaded m c) (n : Nat) (hn : n + 1 < 2 ^ 31)
    (hroom : below.length + 1 < m.calls.limit) :
    Reaches files m 7 (frame c method 0 [] (.ofNat (n + 1)) :: below)
      (frame c method 0 [] (.ofNat n) :: frame c method 7 [.int (.ofNat (n + 1))] (.ofNat (n + 1)) :: below) :=
  (reaches_argument h.code n hn).trans (h.reaches_call hm (callsSum_frame h.code n) hroom)

/-- **With room.** The sum is returned. -/
theorem Sums.reaches_sum (h : Sums c method) (hm : Loaded m c) (n : Nat) (hn : n < 2 ^ 31)
    (hroom : below.length + n + 2 ≤ m.calls.limit) :
    Reaches files m (9 * n + 4) (frame c method 0 [] (.ofNat n) :: caller :: below)
      (caller.pushed (.int (total n)) :: below) := by
  -- each level is the caller of the next one, so the caller and the frames below it are arbitrary
  induction n generalizing caller below with
  | zero => exact reaches_zero h.code (by decide)
  | succ n ih =>
    have hlevel : Reaches files m 7 (frame c method 0 [] (.ofNat (n + 1)) :: caller :: below) _ :=
      h.reaches_level hm n hn (by rw [List.length_cons]; omega)
    have hsum : Reaches files m (9 * n + 4) (frame c method 0 [] (.ofNat n) ::
        frame c method 7 [.int (.ofNat (n + 1))] (.ofNat (n + 1)) :: caller :: below) _ :=
      ih (by omega) (by rw [List.length_cons]; omega)
    have hresult : Reaches files m 2 (frame c method 7 [.int (total n), .int (.ofNat (n + 1))] (.ofNat (n + 1)) ::
        caller :: below) _ := reaches_result h.code
    rw [ofNat_add_total] at hresult
    have hcount : 7 + (9 * n + 4 + 2) = 9 * (n + 1) + 4 := by omega
    rw [← hcount]
    exact hlevel.trans (hsum.trans hresult)

/-- **Without room.** The call that would be one too many fails, and the frames of the calls under way are
still there. -/
theorem Sums.breaks_sum (h : Sums c method) (hm : Loaded m c) (n : Nat) (hn : n < 2 ^ 31)
    (hfits : below.length + 1 ≤ m.calls.limit) (hfull : m.calls.limit < below.length + n + 1) :
    ∃ k ≤ 7 * n, ∃ frames, frames.length = m.calls.limit ∧
      Breaks files m k (frame c method 0 [] (.ofNat n) :: below) (.stackOverflow m.calls.limit) frames := by
  induction n generalizing below with
  | zero => omega
  | succ n ih =>
    -- the next level is entered and is in the same situation, with one more frame below, or its call is the one to fail
    by_cases hroom : below.length + 1 < m.calls.limit
    · obtain ⟨k, hk, frames, hlength, hbreaks⟩ :=
        @ih (frame c method 7 [.int (.ofNat (n + 1))] (.ofNat (n + 1)) :: below) (by omega)
          (by rw [List.length_cons]; omega) (by rw [List.length_cons]; omega)
      exact ⟨7 + k, by omega, frames, hlength, (h.reaches_level hm n hn hroom).breaks hbreaks⟩
    · have hbreaks : Breaks files m 0 (frame c method 6 [.int (.ofNat n), .int (.ofNat (n + 1))] (.ofNat (n + 1)) ::
          below) _ _ :=
        h.breaks_call hm (callsSum_frame h.code n) (by omega)
      exact ⟨6, by omega, _, by rw [List.length_cons]; omega, (reaches_argument h.code n hn).breaks hbreaks⟩

end

end Summing

end Jvm
