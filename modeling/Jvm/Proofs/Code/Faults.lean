import Jvm.Proofs.Code.Tiling

/-!
# When code does not decode

A scan starts at byte 0 and goes from one instruction to the next, to the end of the code or to an
undefined byte. Code does not decode if a scanned instruction runs past the end, and then the first
that does is to blame, or if a branch leads to where no scanned instruction starts, and then the
first such branch is.

One step of the scan is `scannedFrom_iff`, the whole of it `scan_cases`. Main theorem
`decode_faults`: which fault is found, if any, and that the lengths of switches are computed within
64 bits.
-/

namespace Jvm

namespace Code

/-! ## Where instructions start -/

/-- A scan from `first` on comes to an instruction that starts at `start`. It stops behind the end of
the code and behind an undefined byte. -/
inductive ScannedFrom (code : Bytes) : Nat → Nat → Prop
  | here {first : Nat} : first < code.length → ScannedFrom code first first
  | later {first start : Nat} : first < code.length → Format.defined (code.byteAt first) →
      ScannedFrom code (first + Format.length code first) start → ScannedFrom code first start

/-- A scan of the whole code comes to an instruction that starts at `start`. -/
def Scanned (code : Bytes) (start : Nat) : Prop := ScannedFrom code 0 start

/-- The instruction at `start` runs past the end of the code. -/
def Overruns (code : Bytes) (start : Nat) : Prop := code.length < start + Format.length code start

/-- A byte that starts a branch with a 16-bit displacement. Of the branches that are not supported
nothing but the length is read. -/
def IsBranch (byte : UInt8) : Prop :=
  0x99 ≤ byte.toNat ∧ byte.toNat ≤ 0xa4 ∨ byte.toNat = 0xa7 ∨ byte.toNat = 0xc6 ∨ byte.toNat = 0xc7

instance (byte : UInt8) : Decidable (IsBranch byte) := by
  unfold IsBranch
  infer_instance

/-- The scanned branch at `start` leads to the byte offset `target`, and no instruction starts there. -/
structure Misses (code : Bytes) (start : Nat) (target : Int) : Prop where
  scanned : Scanned code start
  branch : IsBranch (code.byteAt start)
  target_eq : target = start + code.signed16 (start + 1)
  missed : ∀ other : Nat, Scanned code other → (other : Int) ≠ target

section
variable {code : Bytes} {first start other : Nat}

theorem ScannedFrom.first_lt (h : ScannedFrom code first start) : first < code.length := by
  cases h with
  | here hlt => exact hlt
  | later hlt => exact hlt

theorem ScannedFrom.le (h : ScannedFrom code first start) : first ≤ start := by
  induction h with
  | here => exact le_rfl
  | later _ _ _ ih => omega

/-- One step of a scan. -/
theorem scannedFrom_iff (hlt : first < code.length) :
    ScannedFrom code first start ↔
      start = first ∨
        Format.defined (code.byteAt first) ∧ ScannedFrom code (first + Format.length code first) start := by
  constructor
  · intro h
    cases h with
    | here => exact .inl rfl
    | later _ hdef h => exact .inr ⟨hdef, h⟩
  · rintro (rfl | ⟨hdef, h⟩)
    · exact .here hlt
    · exact .later hlt hdef h

/-- An instruction ends before a later one starts, so only the last one may run past the end. -/
theorem ScannedFrom.end_le (h : ScannedFrom code first start) (hother : ScannedFrom code first other)
    (hlt : start < other) : start + Format.length code start ≤ other := by
  induction h with
  | here hfirst =>
    rcases (scannedFrom_iff hfirst).1 hother with rfl | ⟨-, hother⟩
    · omega
    · exact hother.le
  | later hfirst _ hstart ih =>
    rcases (scannedFrom_iff hfirst).1 hother with rfl | ⟨-, hother⟩
    · have := hstart.le
      omega
    · exact ih hother hlt

theorem ScannedFrom.lt (h : ScannedFrom code first start) : start < code.length := by
  induction h with
  | here hlt => exact hlt
  | later _ _ _ ih => exact ih

theorem not_overruns_of_lt (h : Scanned code start) (hother : Scanned code other) (hlt : start < other) :
    ¬Overruns code start := by
  have hend := h.end_le hother hlt
  have hother := hother.lt
  unfold Overruns
  omega

/-! ## The scan -/

/-- A cut of code has the instructions that are scanned, all of them whole. -/
theorem Cut.scannedFrom_iff {l : List (Instruction Int)} (h : Cut code first l) :
    ScannedFrom code first start ↔ ∃ inst ∈ l, inst.offset = start := by
  induction h with
  | done =>
    constructor
    · intro h
      exact absurd h.first_lt (Nat.lt_irrefl _)
    · simp
  | undefined hlt hundefined =>
    rw [Code.scannedFrom_iff hlt]
    simp [hundefined, Format.instruction, eq_comm]
  | next hlt hdef hlater ih =>
    rw [Code.scannedFrom_iff hlt, ih]
    simp [hdef, Format.instruction, eq_comm]

theorem Cut.le {l : List (Instruction Int)} (h : Cut code first l) : first ≤ code.length := by
  cases h with
  | done => exact le_rfl
  | undefined hlt => exact hlt.le
  | next hlt => exact hlt.le

theorem Cut.not_overruns {l : List (Instruction Int)} (h : Cut code first l)
    (hstart : ScannedFrom code first start) : ¬Overruns code start := by
  unfold Overruns
  induction h with
  | done => exact absurd hstart.first_lt (Nat.lt_irrefl _)
  | undefined hlt hundefined =>
    rcases (Code.scannedFrom_iff hlt).1 hstart with rfl | ⟨hdef, -⟩
    · rw [Format.length_of_undefined hundefined]
      omega
    · exact absurd hdef hundefined
  | next hlt hdef hlater ih =>
    rcases (Code.scannedFrom_iff hlt).1 hstart with rfl | ⟨-, hstart⟩
    · have := hlater.le
      omega
    · exact ih hstart

theorem Cut.offset_le {l : List (Instruction Int)} (h : Cut code first l) {inst : Instruction Int}
    (hinst : inst ∈ l) : first ≤ inst.offset :=
  (h.scannedFrom_iff.2 ⟨inst, hinst, rfl⟩).le

/-- The instructions of a cut stand in the order of their offsets. -/
theorem Cut.pairwise {l : List (Instruction Int)} (h : Cut code first l) :
    l.Pairwise fun a b => a.offset < b.offset := by
  induction h with
  | done => exact .nil
  | undefined => exact List.pairwise_singleton _ _
  | @next first later _ _ hlater ih =>
    refine List.pairwise_cons.2 ⟨fun inst hinst => ?_, ih⟩
    have hle := hlater.offset_le hinst
    have hpos := Format.length_pos code first
    change first < inst.offset
    omega

/-- A scan that fails has come to an instruction that runs past the end. -/
theorem overruns_of_scan {fault : DecodeError} (h : scan first (code.drop first) = .error fault) :
    ∃ start, fault = .truncated start ∧ ScannedFrom code first start ∧ Overruns code start := by
  induction hn : code.length - first using Nat.strong_induction_on generalizing first with
  | _ n ih =>
    by_cases hlt : first < code.length
    · have hpos := Format.length_pos code first
      rw [scan_drop hlt] at h
      by_cases hover : code.length < first + Format.length code first
      · rw [if_pos hover] at h
        cases h
        exact ⟨first, rfl, .here hlt, hover⟩
      rw [if_neg hover] at h
      by_cases hdef : Format.defined (code.byteAt first) = true
      · rw [if_pos hdef] at h
        cases hlater : scan (first + Format.length code first) (code.drop (first + Format.length code first)) with
        | ok later =>
          rw [hlater] at h
          cases h
        | error fault' =>
          rw [hlater] at h
          cases h
          obtain ⟨start, hfault, hstart, hover⟩ := ih _ (by omega) hlater rfl
          exact ⟨start, hfault, .later hlt hdef hstart, hover⟩
      · rw [if_neg hdef] at h
        cases h
    · rw [List.drop_eq_nil_of_le (by omega), scan] at h
      cases h

theorem scan_cases (code : Bytes) :
    (∃ start, scan 0 code = .error (.truncated start) ∧ Scanned code start ∧ Overruns code start) ∨
      ∃ l, scan 0 code = .ok l ∧ Cut code 0 l := by
  cases h : scan 0 code with
  | error fault =>
    rw [← List.drop_zero (l := code)] at h
    obtain ⟨start, rfl, hstart, hover⟩ := overruns_of_scan h
    exact .inl ⟨start, rfl, hstart, hover⟩
  | ok l => exact .inr ⟨l, rfl, cut_of_scan (Nat.zero_le _) h⟩

end

/-! ## Branches -/

section
variable {code : Bytes} {start : Nat} {target : Int} {l : List (Instruction Int)}

theorem mem_branchOpcodes_iff (byte : UInt8) : .ofByte byte ∈ Format.branchOpcodes ↔ IsBranch byte :=
  Format.forall_byte (p := fun byte => .ofByte byte ∈ Format.branchOpcodes ↔ IsBranch byte) (by decide +kernel) byte

/-- The operand of a branch is its displacement. -/
theorem operand_eq_branch_iff {displacement : Int} :
    (Format.instruction code start).operand = .branch displacement ↔
      IsBranch (code.byteAt start) ∧ displacement = code.signed16 (start + 1) := by
  change Format.operand (Format.opcode code start) code start = _ ↔ _
  by_cases hwide : code.byteAt start = 0xc4
  · have hbranch : ¬IsBranch (code.byteAt start) := by
      rw [hwide]
      decide
    constructor
    · intro h
      rw [Format.operand, if_pos hwide] at h
      cases hop : Format.opcode code start <;> simp [hop, Format.wideOperand] at h
    · intro h
      exact absurd h.1 hbranch
  · rw [← mem_branchOpcodes_iff, ← Format.opcode_of_ne_wide hwide]
    constructor
    · intro h
      have hop := Format.mem_branchOpcodes h
      rw [Format.operand_of_ne_wide _ hwide, Format.narrowOperand_branch hop] at h
      exact ⟨hop, (Operand.branch.inj h).symm⟩
    · rintro ⟨hop, hdisplacement⟩
      rw [Format.operand_of_ne_wide _ hwide, Format.narrowOperand_branch hop, hdisplacement]

theorem indexAt?_eq_none_iff : indexAt? l target = none ↔ ∀ other ∈ l, (other.offset : Int) ≠ target := by
  simp [indexAt?, List.findIdx?_eq_none_iff]

/-- Only a branch that leads to no instruction is not resolved. -/
theorem resolve_eq_error_iff {inst : Instruction Int} {fault : DecodeError} :
    resolve l inst = .error fault ↔
      ∃ displacement, inst.operand = .branch displacement ∧
        (∀ other ∈ l, (other.offset : Int) ≠ inst.offset + displacement) ∧
        fault = .invalidBranchTarget inst.offset (inst.offset + displacement) := by
  simp only [← indexAt?_eq_none_iff]
  obtain ⟨offset, opcode, operand⟩ := inst
  cases operand with
  | branch displacement =>
    cases hindex : indexAt? l (offset + displacement) with
    | none => simp [resolve, Operand.mapTarget, hindex, Except.map, eq_comm]
    | some index => simp [resolve, Operand.mapTarget, hindex, Except.map]
  | _ => simp [resolve, Operand.mapTarget, Except.map]

/-- The instructions of a cut that are not resolved are the branches that miss. -/
theorem Cut.misses_iff (hcut : Cut code 0 l) :
    Misses code start target ↔
      ∃ inst ∈ l, inst.offset = start ∧ resolve l inst = .error (.invalidBranchTarget start target) := by
  have hscanned : ∀ other, Scanned code other ↔ ∃ inst ∈ l, inst.offset = other := fun _ => hcut.scannedFrom_iff
  constructor
  · rintro ⟨hstart, hbranch, htarget, hmissed⟩
    obtain ⟨inst, hinst, rfl⟩ := (hscanned start).1 hstart
    rw [htarget] at hmissed ⊢
    refine ⟨inst, hinst, rfl, resolve_eq_error_iff.2 ⟨code.signed16 (inst.offset + 1), ?_, ?_, rfl⟩⟩
    · rw [(hcut.of_mem hinst).2]
      exact operand_eq_branch_iff.2 ⟨hbranch, rfl⟩
    · intro other hother
      exact hmissed other.offset ((hscanned other.offset).2 ⟨other, hother, rfl⟩)
  · rintro ⟨inst, hinst, rfl, hresolve⟩
    obtain ⟨displacement, hoperand, hnone, hfault⟩ := resolve_eq_error_iff.1 hresolve
    rw [(hcut.of_mem hinst).2] at hoperand
    obtain ⟨hbranch, hdisplacement⟩ := operand_eq_branch_iff.1 hoperand
    have htarget := (DecodeError.invalidBranchTarget.inj hfault).2
    rw [← htarget] at hnone
    refine ⟨(hscanned inst.offset).2 ⟨inst, hinst, rfl⟩, hbranch, by rw [htarget, hdisplacement], ?_⟩
    intro other hother
    obtain ⟨reached, hreached, rfl⟩ := (hscanned other).1 hother
    exact hnone reached hreached

theorem offset_of_resolve {inst : Instruction Int} {fault : DecodeError} (h : resolve l inst = .error fault) :
    ∃ target, fault = .invalidBranchTarget inst.offset target := by
  obtain ⟨displacement, -, -, hfault⟩ := resolve_eq_error_iff.1 h
  exact ⟨_, hfault⟩

/-- The fault of the branch pass is that of the first branch that misses. -/
theorem Cut.mapM_resolve_eq_error_iff (hcut : Cut code 0 l) :
    l.mapM (resolve l) = .error (.invalidBranchTarget start target) ↔
      Misses code start target ∧ ∀ other elsewhere, Misses code other elsewhere → start ≤ other := by
  rw [mapM_eq_error_iff]
  have hsorted := hcut.pairwise
  constructor
  · rintro ⟨before, inst, after, hl, hbefore, hinst⟩
    obtain ⟨_, heq⟩ := offset_of_resolve hinst
    obtain ⟨rfl, rfl⟩ := DecodeError.invalidBranchTarget.inj heq
    refine ⟨hcut.misses_iff.2 ⟨inst, by simp [hl], rfl, hinst⟩, ?_⟩
    intro other elsewhere hother
    obtain ⟨otherInst, hmem, rfl, hfails⟩ := hcut.misses_iff.1 hother
    rw [hl] at hmem hsorted
    rcases List.mem_append.1 hmem with hmem | hmem
    · obtain ⟨inst', hok⟩ := hbefore otherInst hmem
      rw [hok] at hfails
      cases hfails
    · rcases List.mem_cons.1 hmem with rfl | hmem
      · exact le_rfl
      · have hlt := (List.pairwise_cons.1 (List.pairwise_append.1 hsorted).2.1).1 otherInst hmem
        exact hlt.le
  · rintro ⟨hmisses, hfirst⟩
    obtain ⟨inst, hmem, rfl, hfails⟩ := hcut.misses_iff.1 hmisses
    obtain ⟨before, after, hl⟩ := List.append_of_mem hmem
    refine ⟨before, inst, after, hl, ?_, hfails⟩
    intro earlier hearlier
    rw [hl] at hsorted
    have hlt := (List.pairwise_append.1 hsorted).2.2 earlier hearlier inst (by simp)
    cases hresolve : resolve l earlier with
    | ok inst' => exact ⟨inst', rfl⟩
    | error fault =>
      obtain ⟨elsewhere, rfl⟩ := offset_of_resolve hresolve
      have hle := hfirst earlier.offset elsewhere (hcut.misses_iff.2 ⟨earlier, by simp [hl, hearlier], rfl, hresolve⟩)
      omega

end

/-! ## The outcome -/

theorem decode_of_scan_error {code : Bytes} {fault : DecodeError} (h : scan 0 code = .error fault) :
    decode code = .error fault := by
  rw [decode, h]
  rfl

theorem decode_of_scan_ok {code : Bytes} {l : List (Instruction Int)} (h : scan 0 code = .ok l) :
    decode code = (l.mapM (resolve l)).map List.toArray := by
  rw [decode, h]
  change (l.mapM (resolve l) >>= _) = _
  cases l.mapM (resolve l) <;> rfl

theorem decode_eq_truncated_iff (code : Bytes) (start : Nat) :
    decode code = .error (.truncated start) ↔
      Scanned code start ∧ Overruns code start ∧ ∀ earlier < start, Scanned code earlier → ¬Overruns code earlier := by
  constructor
  · intro h
    rcases scan_cases code with ⟨start', hscan, hstart, hover⟩ | ⟨l, hscan, hcut⟩
    · rw [decode_of_scan_error hscan] at h
      cases h
      exact ⟨hstart, hover, fun earlier hlt hearlier => not_overruns_of_lt hearlier hstart hlt⟩
    · rw [decode_of_scan_ok hscan] at h
      cases hresolve : l.mapM (resolve l) with
      | ok resolved =>
        rw [hresolve] at h
        cases h
      | error fault =>
        rw [hresolve] at h
        cases h
        obtain ⟨_, inst, _, -, -, hinst⟩ := mapM_eq_error_iff.1 hresolve
        obtain ⟨_, hfault⟩ := offset_of_resolve hinst
        cases hfault
  · rintro ⟨hstart, hover, -⟩
    rcases scan_cases code with ⟨start', hscan, hstart', hover'⟩ | ⟨l, hscan, hcut⟩
    · rcases Nat.lt_trichotomy start start' with hlt | rfl | hlt
      · exact absurd hover (not_overruns_of_lt hstart hstart' hlt)
      · exact decode_of_scan_error hscan
      · exact absurd hover' (not_overruns_of_lt hstart' hstart hlt)
    · exact absurd hover (hcut.not_overruns hstart)

theorem decode_eq_invalidBranchTarget_iff (code : Bytes) (start : Nat) (target : Int) :
    decode code = .error (.invalidBranchTarget start target) ↔
      (∀ other, Scanned code other → ¬Overruns code other) ∧ Misses code start target ∧
        ∀ other elsewhere, Misses code other elsewhere → start ≤ other := by
  rcases scan_cases code with ⟨start', hscan, hstart', hover'⟩ | ⟨l, hscan, hcut⟩
  · rw [decode_of_scan_error hscan]
    constructor
    · intro h
      cases h
    · intro h
      exact absurd hover' (h.1 start' hstart')
  · rw [decode_of_scan_ok hscan, ← hcut.mapM_resolve_eq_error_iff]
    constructor
    · intro h
      refine ⟨fun other hother => hcut.not_overruns hother, ?_⟩
      cases hresolve : l.mapM (resolve l) with
      | ok resolved =>
        rw [hresolve] at h
        cases h
      | error fault =>
        rw [hresolve] at h
        cases h
        rfl
    · rintro ⟨-, h⟩
      rw [h]
      rfl

theorem exists_decode_iff (code : Bytes) :
    (∃ l, decode code = .ok l) ↔
      (∀ other, Scanned code other → ¬Overruns code other) ∧ ∀ other elsewhere, ¬Misses code other elsewhere := by
  rcases scan_cases code with ⟨start, hscan, hstart, hover⟩ | ⟨l, hscan, hcut⟩
  · rw [decode_of_scan_error hscan]
    constructor
    · rintro ⟨_, ⟨⟩⟩
    · intro h
      exact absurd hover (h.1 start hstart)
  · rw [decode_of_scan_ok hscan]
    constructor
    · rintro ⟨decoded, hdecoded⟩
      obtain ⟨resolved, hresolve, -⟩ := exists_of_map_ok hdecoded
      refine ⟨fun other hother => hcut.not_overruns hother, fun other elsewhere hother => ?_⟩
      obtain ⟨inst, hinst, rfl, hfails⟩ := hcut.misses_iff.1 hother
      obtain ⟨inst', hok⟩ := exists_mapM_ok_iff.1 ⟨resolved, hresolve⟩ inst hinst
      rw [hok] at hfails
      cases hfails
    · rintro ⟨-, hnone⟩
      have hall : ∀ inst ∈ l, ∃ inst', resolve l inst = .ok inst' := by
        intro inst hinst
        cases hresolve : resolve l inst with
        | ok inst' => exact ⟨inst', rfl⟩
        | error fault =>
          obtain ⟨elsewhere, rfl⟩ := offset_of_resolve hresolve
          exact absurd (hcut.misses_iff.2 ⟨inst, hinst, rfl, hresolve⟩) (hnone inst.offset elsewhere)
      obtain ⟨resolved, hresolved⟩ := exists_mapM_ok_iff.2 hall
      exact ⟨resolved.toArray, by rw [hresolved]; rfl⟩

/-! ## Lengths of switches within 64 bits -/

def IsSwitch (byte : UInt8) : Prop := byte = 0xaa ∨ byte = 0xab

/-- Position of the first word of the switch at `start`, behind the padding. -/
def firstWord (start : Nat) : Nat := start + 1 + Format.padding start

/-- Position of the table of the switch at `start`, behind its header. -/
def tableOf (code : Bytes) (start : Nat) : Nat :=
  if code.byteAt start = 0xaa then firstWord start + 12 else firstWord start + 8

/-- Where the switch at `start` ends, by 64-bit arithmetic of which no step may overflow. -/
def switchEnd? (code : Bytes) (start : Nat) : Option Int := do
  let table ← unsigned64? (tableOf code start)
  if code.byteAt start = 0xaa then
    jumpTableEnd? table (code.signed32 (firstWord start + 4)) (code.signed32 (firstWord start + 8))
  else pairTableEnd? table (code.signed32 (firstWord start + 4))

theorem signed32_bounds (code : Bytes) (i : Nat) : -0x80000000 ≤ code.signed32 i ∧ code.signed32 i < 0x80000000 := by
  have hlow := Int.le_bmod (x := code.unsigned32 i) (m := 4294967296) (by decide)
  have hhigh := Int.bmod_lt (x := code.unsigned32 i) (m := 4294967296) (by decide)
  unfold Bytes.signed32
  omega

/-- No switch in code of less than 2 ^ 63 bytes is too long for 64 bits, and none ends in its header. -/
theorem switchEnd?_eq {code : Bytes} {start : Nat} (hlen : code.length < 2 ^ 63) (hlt : start < code.length)
    (h : IsSwitch (code.byteAt start)) :
    switchEnd? code start = some ((start + Format.length code start : Nat) : Int) ∧
      tableOf code start ≤ start + Format.length code start := by
  have hlow := signed32_bounds code (firstWord start + 4)
  have hhigh := signed32_bounds code (firstWord start + 8)
  have hfirst : firstWord start = start + 1 + Format.padding start := rfl
  have hpadding : Format.padding start ≤ 3 := Nat.sub_le 3 _
  rcases h with htable | hlookup
  · have hposition : tableOf code start = firstWord start + 12 := if_pos htable
    have hlength : Format.length code start = 1 + Format.padding start + 12 +
        4 * (code.signed32 (firstWord start + 8) - code.signed32 (firstWord start + 4) + 1).toNat := by
      rw [Format.length_tableSwitch htable, hfirst]
    have hheader : unsigned64? (tableOf code start) = some ↑(tableOf code start) :=
      unsigned64?_of (by omega) (by omega)
    have hend : jumpTableEnd? (tableOf code start) _ _ = _ := jumpTableEnd?_eq (by omega) (by omega) hlow hhigh
    constructor
    · have hswitch : switchEnd? code start =
          jumpTableEnd? (tableOf code start) (code.signed32 (firstWord start + 4))
            (code.signed32 (firstWord start + 8)) := by
        rw [switchEnd?, hheader]
        exact if_pos htable
      rw [hswitch, hend]
      exact congrArg some (by omega)
    · omega
  · have hother : code.byteAt start ≠ 0xaa := by simp [hlookup]
    have hposition : tableOf code start = firstWord start + 8 := if_neg hother
    have hlength : Format.length code start = 1 + Format.padding start + 8 +
        8 * (code.signed32 (firstWord start + 4)).toNat := by
      rw [Format.length_lookupSwitch hlookup, hfirst]
    have hheader : unsigned64? (tableOf code start) = some ↑(tableOf code start) :=
      unsigned64?_of (by omega) (by omega)
    have hend : pairTableEnd? (tableOf code start) _ = _ := pairTableEnd?_eq (by omega) (by omega) hlow
    constructor
    · have hswitch : switchEnd? code start =
          pairTableEnd? (tableOf code start) (code.signed32 (firstWord start + 4)) := by
        rw [switchEnd?, hheader]
        exact if_neg hother
      rw [hswitch, hend]
      exact congrArg some (by omega)
    · omega

/-- **Faults.** Code has a truncated instruction just if a scanned one runs past the end, and the
first one is blamed. Otherwise it has an invalid branch just if a scanned branch misses, and again
the first one is blamed. Otherwise it decodes. The scan always gets on, and the length of a switch
is right in 64-bit arithmetic, whatever words the switch holds. -/
theorem decode_faults (code : Bytes) :
    (∀ start, decode code = .error (.truncated start) ↔
      Scanned code start ∧ Overruns code start ∧ ∀ earlier < start, Scanned code earlier → ¬Overruns code earlier) ∧
    (∀ start target, decode code = .error (.invalidBranchTarget start target) ↔
      (∀ other, Scanned code other → ¬Overruns code other) ∧ Misses code start target ∧
        ∀ other elsewhere, Misses code other elsewhere → start ≤ other) ∧
    ((∃ l, decode code = .ok l) ↔
      (∀ other, Scanned code other → ¬Overruns code other) ∧ ∀ other elsewhere, ¬Misses code other elsewhere) ∧
    (∀ start, 1 ≤ Format.length code start) ∧
    (code.length < 2 ^ 63 → ∀ start < code.length, IsSwitch (code.byteAt start) →
      switchEnd? code start = some ((start + Format.length code start : Nat) : Int) ∧
        tableOf code start ≤ start + Format.length code start) := by
  refine ⟨decode_eq_truncated_iff code, decode_eq_invalidBranchTarget_iff code, exists_decode_iff code, ?_, ?_⟩
  · intro start
    exact Format.length_pos code start
  · intro hlen start hlt hswitch
    exact switchEnd?_eq hlen hlt hswitch

/-- A `tableswitch` for all values there are. -/
def Sample.widestSwitch : Bytes := [0xaa, 0, 0, 0, 0, 0, 0, 0, 0x80, 0, 0, 0, 0x7f, 0xff, 0xff, 0xff]

theorem decode_faults_widest :
    Sample.widestSwitch.length < 2 ^ 63 ∧ IsSwitch (Sample.widestSwitch.byteAt 0) ∧
      switchEnd? Sample.widestSwitch 0 = some 17179869200 ∧
      decode Sample.widestSwitch = .error (.truncated 0) := by
  obtain ⟨htruncated, -, -, -, hswitch⟩ := decode_faults Sample.widestSwitch
  have hlen : Sample.widestSwitch.length < 2 ^ 63 := by decide
  have hbyte : IsSwitch (Sample.widestSwitch.byteAt 0) := .inl rfl
  have hlength : Format.length Sample.widestSwitch 0 = 17179869200 := by decide +kernel
  have hend := (hswitch hlen 0 (by decide) hbyte).1
  rw [hlength] at hend
  refine ⟨hlen, hbyte, hend, (htruncated 0).2 ⟨.here (by decide), ?_, by simp⟩⟩
  rw [Overruns, hlength]
  simp [Sample.widestSwitch]

end Code

end Jvm
