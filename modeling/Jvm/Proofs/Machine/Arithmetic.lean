import Jvm.Proofs.Machine.WithinFrame

/-!
# Integer arithmetic is exact modulo the word size

What the integer instructions compute, said of the integers: sums, differences and products are those
of the integers, brought into 32 bits (`Wraps`), quotients are truncated (`TruncatedDivision`), and branches
compare the integers themselves. Operands are listed as they stand on the stack, the second one first.

Main theorem `integer_arithmetic`.
-/

namespace Jvm

/-! ## Words and integers -/

/-- The one 32-bit integer that is congruent to `n`. -/
def Wraps (n : Int) (result : Int32) : Prop := ∀ s : Int32, s.toInt ≡ n [ZMOD 2 ^ 32] ↔ s = result

/-- The quotient and the remainder of a division that truncates. One quotient does not fit. -/
structure TruncatedDivision (a b q r : Int32) : Prop where
  sum : q.toInt * b.toInt + r.toInt ≡ a.toInt [ZMOD 2 ^ 32]
  sign : r.toInt = 0 ∨ r.toInt.sign = a.toInt.sign
  bound : |r.toInt| < |b.toInt|
  quotient : ¬(a.toInt = -2 ^ 31 ∧ b.toInt = -1) → q.toInt = a.toInt.tdiv b.toInt
  overflow : a.toInt = -2 ^ 31 → b.toInt = -1 → q.toInt = -2 ^ 31 ∧ r.toInt = 0

theorem wraps_of_toInt {n : Int} {result : Int32} (h : result.toInt = n.bmod (2 ^ 32)) : Wraps n result := by
  intro s
  constructor
  · intro hs
    rw [← Int32.toInt_inj, h, ← Int32.toInt_bmod_size s]
    unfold Int.ModEq at hs
    rw [← Int.emod_bmod, ← Int.emod_bmod n]
    exact congrArg (Int.bmod · (2 ^ 32)) hs
  · rintro rfl
    rw [h]
    exact Int.bmod_emod

theorem wraps_ofNat (n : Nat) : Wraps n (.ofNat n) := wraps_of_toInt Int32.toInt_ofNat'

section
variable {a b : Int32}

theorem eq_zero_iff_toInt : b = 0 ↔ b.toInt = 0 := by
  rw [← Int32.toInt_inj]
  rfl

/-- Only the quotient of the least integer by -1 is out of range. -/
theorem toInt_div_of_fits (h : ¬(a.toInt = -2 ^ 31 ∧ b.toInt = -1)) : (a / b).toInt = a.toInt.tdiv b.toInt := by
  by_cases ha : a = Int32.minValue
  · have hb : b ≠ -1 := by
      rintro rfl
      exact h ⟨by rw [ha]; rfl, rfl⟩
    exact Int32.toInt_div_of_ne_right a b hb
  · exact Int32.toInt_div_of_ne_left a b ha

theorem truncatedDivision (hb : b ≠ 0) : TruncatedDivision a b (a / b) (a % b) where
  sum := by
    rw [Int32.toInt_div, Int32.toInt_mod]
    have hquotient : (a.toInt.tdiv b.toInt).bmod (2 ^ 32) ≡ a.toInt.tdiv b.toInt [ZMOD 2 ^ 32] := Int.bmod_emod
    calc (a.toInt.tdiv b.toInt).bmod (2 ^ 32) * b.toInt + a.toInt.tmod b.toInt
        ≡ a.toInt.tdiv b.toInt * b.toInt + a.toInt.tmod b.toInt [ZMOD 2 ^ 32] :=
          (hquotient.mul_right _).add_right _
      _ = a.toInt := Int.tdiv_mul_add_tmod _ _
  sign := by
    rw [Int32.toInt_mod]
    by_cases hdvd : b.toInt ∣ a.toInt
    · exact .inl (Int.tmod_eq_zero_of_dvd hdvd)
    · exact .inr (by rw [Int.sign_tmod, if_neg hdvd])
  bound := by
    have hpos : 0 < b.toInt.natAbs := Int.natAbs_pos.2 (mt eq_zero_iff_toInt.2 hb)
    have hlt := Nat.mod_lt a.toInt.natAbs hpos
    rw [Int32.toInt_mod, Int.abs_eq_natAbs, Int.abs_eq_natAbs, Int.natAbs_tmod]
    exact_mod_cast hlt
  quotient := toInt_div_of_fits
  overflow := by
    intro ha hb
    rw [Int32.toInt_div, Int32.toInt_mod, ha, hb]
    decide

end

/-! ## Comparisons -/

namespace Comparison

/-- The relation between integers. -/
def Holds : Comparison → Int → Int → Prop
  | .eq, a, b => a = b
  | .ne, a, b => a ≠ b
  | .lt, a, b => a < b
  | .ge, a, b => a ≥ b
  | .gt, a, b => a > b
  | .le, a, b => a ≤ b

def opposite : Comparison → Comparison
  | .eq => .ne | .ne => .eq
  | .lt => .ge | .ge => .lt
  | .gt => .le | .le => .gt

/-- The opcode that compares an integer with zero. -/
def zeroOpcode : Comparison → Opcode
  | .eq => .ifeq | .ne => .ifne
  | .lt => .iflt | .ge => .ifge
  | .gt => .ifgt | .le => .ifle

/-- The opcode that compares two integers. -/
def compareOpcode : Comparison → Opcode
  | .eq => .ifIcmpeq | .ne => .ifIcmpne
  | .lt => .ifIcmplt | .ge => .ifIcmpge
  | .gt => .ifIcmpgt | .le => .ifIcmple

theorem holds_iff (test : Comparison) (a b : Int32) : test.holds a b = true ↔ test.Holds a.toInt b.toInt := by
  cases test <;> simp [holds, Holds, Int32.toInt_inj, Int32.lt_iff_toInt_lt, Int32.le_iff_toInt_le]

theorem holds_opposite_iff (test : Comparison) (a b : Int) : test.opposite.Holds a b ↔ ¬test.Holds a b := by
  cases test <;> simp [opposite, Holds]

theorem operation_zeroOpcode (test : Comparison) : test.zeroOpcode.operation = .within (.branchZero test) := by
  cases test <;> rfl

theorem operation_compareOpcode (test : Comparison) :
    test.compareOpcode.operation = .within (.branchCompare test) := by
  cases test <;> rfl

end Comparison

/-! ## What opcodes compute -/

namespace Opcode

/-- The opcode replaces these operands on the stack of the running frame by these results. -/
def Computes (op : Opcode) (operands results : List Value) : Prop :=
  ∀ (files : FileSystem) (m : Machine) (f : Frame) (below : List Frame) (inst : Instruction Nat) (rest : List Value),
    m.At f below inst → inst.opcode = op → f.stack = operands ++ rest →
      m.StepsTo files ({ f with pc := f.pc + 1, stack := results ++ rest } :: below)

/-- The opcode fails on these operands just if `p` holds, and then it has taken them off the stack. -/
def FailsIff (op : Opcode) (operands : List Value) (error : Error) (p : Prop) : Prop :=
  ∀ (files : FileSystem) (m : Machine) (f : Frame) (below : List Frame) (inst : Instruction Nat) (rest : List Value),
    m.At f below inst → inst.opcode = op → f.stack = operands ++ rest →
      ((∃ after, Machine.step files m = .error (.failed error) after) ↔ p) ∧
        (p → m.FailsWith files error ({ f with pc := f.pc + 1, stack := rest } :: below))

/-- The opcode takes these operands off the stack, and branches just if `taken` holds. -/
def Branches (op : Opcode) (operands : List Value) (taken : Prop) : Prop :=
  ∀ (files : FileSystem) (m : Machine) (f : Frame) (below : List Frame) (inst : Instruction Nat) (rest : List Value)
    (target : Nat), m.At f below inst → inst.opcode = op → inst.operand = .branch target → f.stack = operands ++ rest →
      (taken → m.StepsTo files ({ f with pc := target, stack := rest } :: below)) ∧
        (¬taken → m.StepsTo files ({ f with pc := f.pc + 1, stack := rest } :: below))

/-- `iinc` by `delta` turns the value `a` of its local variable into `result`. -/
def Increments (a delta result : Int32) : Prop :=
  ∀ (files : FileSystem) (m : Machine) (f : Frame) (below : List Frame) (inst : Instruction Nat) (slot : UInt16),
    m.At f below inst → inst.opcode = .iinc → inst.operand = .increment slot delta →
      f.locals[slot.toNat]? = some (.int a) →
        m.StepsTo files ({ f with pc := f.pc + 1, locals := f.locals.setIfInBounds slot.toNat (.int result) } :: below)

section
variable {op : Opcode} {a b result : Int32}

theorem computes_arithmetic {arithmetic : Arithmetic} (hop : op.operation = .within (.arithmetic arithmetic))
    (hresult : arithmetic.result? a b = some result) : op.Computes [.int b, .int a] [.int result] := by
  rintro files m f below inst rest hat rfl hstack
  have hstack' : ({ f with pc := f.pc + 1 } : Frame).stack = .int b :: .int a :: rest := hstack
  refine Machine.stepsTo_of_perform hat hop ?_
  rw [Frame.perform_arithmetic arithmetic hstack', hresult]
  rfl

theorem failsIff_arithmetic {arithmetic : Arithmetic} {p : Prop} (hop : op.operation = .within (.arithmetic arithmetic))
    (hresult : arithmetic.result? a b = none ↔ p) :
    op.FailsIff [.int b, .int a] (.arithmetic "/ by zero") p := by
  intro files m f below inst rest hat hinst hstack
  cases h : arithmetic.result? a b with
  | none =>
    have hstack' : ({ f with pc := f.pc + 1 } : Frame).stack = .int b :: .int a :: rest := hstack
    have hperform : Frame.perform (.arithmetic arithmetic) inst { f with pc := f.pc + 1 } = _ :=
      Frame.perform_arithmetic arithmetic hstack'
    rw [h] at hperform
    obtain ⟨log, hstep⟩ : m.FailsWith files _ _ := Machine.failsWith_of_perform hat (hinst ▸ hop) hperform
    exact ⟨⟨fun _ => hresult.1 h, fun _ => ⟨_, hstep⟩⟩, fun _ => ⟨log, hstep⟩⟩
  | some result =>
    obtain ⟨log, hstep⟩ := computes_arithmetic hop h files m f below inst rest hat hinst hstack
    have hp : ¬p := fun hp => by
      rw [hresult.2 hp] at h
      cases h
    refine ⟨⟨?_, fun hp' => absurd hp' hp⟩, fun hp' => absurd hp' hp⟩
    rintro ⟨after, hfails⟩
    rw [hstep] at hfails
    cases hfails

theorem computes_negate : Opcode.ineg.Computes [.int a] [.int (-a)] := by
  intro files m f below inst rest hat hinst hstack
  have hstack' : ({ f with pc := f.pc + 1 } : Frame).stack = .int a :: rest := hstack
  exact Machine.stepsTo_of_perform hat (hinst ▸ rfl) (Frame.perform_negate hstack')

theorem increments (a delta : Int32) : Increments a delta (a + delta) := by
  intro files m f below inst slot hat hinst hoperand hlocal
  have hlocal' : ({ f with pc := f.pc + 1 } : Frame).locals[slot.toNat]? = some (.int a) := hlocal
  exact Machine.stepsTo_of_perform hat (hinst ▸ rfl) (Frame.perform_increment hoperand hlocal')

/-- A branch within the frame, which is taken just if `test` says so. -/
theorem branches_of_perform {operation : FrameOperation} {operands : List Value} {taken : Prop} {test : Bool}
    (hop : op.operation = .within operation) (htest : test = true ↔ taken)
    (hperform : ∀ (inst : Instruction Nat) (f : Frame) (rest : List Value) (target : Nat), inst.operand = .branch target →
      f.stack = operands ++ rest →
        Frame.perform operation inst f = .ok () { f with pc := if test then target else f.pc, stack := rest }) :
    op.Branches operands taken := by
  intro files m f below inst rest target hat hinst hoperand hstack
  have hsteps : m.StepsTo files ({ f with pc := if test then target else f.pc + 1, stack := rest } :: below) :=
    Machine.stepsTo_of_perform hat (hinst ▸ hop) (hperform inst { f with pc := f.pc + 1 } rest target hoperand hstack)
  constructor
  · intro htaken
    rwa [if_pos (htest.2 htaken)] at hsteps
  · intro htaken
    rwa [if_neg (mt htest.1 htaken)] at hsteps

theorem branches_compare (test : Comparison) (a b : Int32) :
    test.compareOpcode.Branches [.int b, .int a] (test.Holds a.toInt b.toInt) :=
  branches_of_perform test.operation_compareOpcode (test.holds_iff a b) fun _ _ _ _ hoperand hstack =>
    Frame.perform_branchCompare test hoperand hstack

theorem branches_zero (test : Comparison) (a : Int32) :
    test.zeroOpcode.Branches [.int a] (test.Holds a.toInt 0) :=
  branches_of_perform test.operation_zeroOpcode (test.holds_iff a 0) fun _ _ _ _ hoperand hstack =>
    Frame.perform_branchZero test hoperand hstack

end

end Opcode

/-! ## All of them -/

open Opcode in
/-- What the integer instructions do with `a`, which is pushed first, and `b`. -/
structure IntegerArithmetic (a b : Int32) : Prop where
  add : ∃ result, Wraps (a.toInt + b.toInt) result ∧ iadd.Computes [.int b, .int a] [.int result]
  sub : ∃ result, Wraps (a.toInt - b.toInt) result ∧ isub.Computes [.int b, .int a] [.int result]
  mul : ∃ result, Wraps (a.toInt * b.toInt) result ∧ imul.Computes [.int b, .int a] [.int result]
  neg : ∃ result, Wraps (-a.toInt) result ∧ ineg.Computes [.int a] [.int result]
  increment : ∃ result, Wraps (a.toInt + b.toInt) result ∧ Increments a b result
  divides : b ≠ 0 → ∃ q r, TruncatedDivision a b q r ∧
    idiv.Computes [.int b, .int a] [.int q] ∧ irem.Computes [.int b, .int a] [.int r]
  byZero : ∀ op ∈ [idiv, irem], op.FailsIff [.int b, .int a] (.arithmetic "/ by zero") (b = 0)
  compare : ∀ test : Comparison, test.compareOpcode.Branches [.int b, .int a] (test.Holds a.toInt b.toInt)
  /-- Of two opposite tests just one branches. -/
  opposite : ∀ test : Comparison, ∃ taken, test.compareOpcode.Branches [.int b, .int a] taken ∧
    test.opposite.compareOpcode.Branches [.int b, .int a] (¬taken)
  /-- A test of `a` alone is that of `a` against a zero that is pushed after it. -/
  zero : ∀ test : Comparison, ∃ taken, test.zeroOpcode.Branches [.int a] taken ∧
    test.compareOpcode.Branches [.int 0, .int a] taken

/-- **Integer arithmetic.** The integer instructions compute with the integers that the words stand for,
modulo 2³² where the result is a word. -/
theorem integer_arithmetic (a b : Int32) : IntegerArithmetic a b where
  add := ⟨_, wraps_of_toInt (Int32.toInt_add a b), Opcode.computes_arithmetic rfl rfl⟩
  sub := ⟨_, wraps_of_toInt (Int32.toInt_sub a b), Opcode.computes_arithmetic rfl rfl⟩
  mul := ⟨_, wraps_of_toInt (Int32.toInt_mul a b), Opcode.computes_arithmetic rfl rfl⟩
  neg := ⟨_, wraps_of_toInt (Int32.toInt_neg a), Opcode.computes_negate⟩
  increment := ⟨_, wraps_of_toInt (Int32.toInt_add a b), Opcode.increments a b⟩
  divides hb := ⟨_, _, truncatedDivision hb, Opcode.computes_arithmetic rfl (if_neg hb),
    Opcode.computes_arithmetic rfl (if_neg hb)⟩
  byZero := by
    intro op hop
    fin_cases hop
    · exact Opcode.failsIff_arithmetic rfl (by simp [Arithmetic.result?])
    · exact Opcode.failsIff_arithmetic rfl (by simp [Arithmetic.result?])
  compare test := Opcode.branches_compare test a b
  opposite test := by
    refine ⟨_, Opcode.branches_compare test a b, ?_⟩
    rw [← test.holds_opposite_iff]
    exact Opcode.branches_compare test.opposite a b
  zero test := ⟨_, Opcode.branches_zero test a, Opcode.branches_compare test a 0⟩

end Jvm
