import Jvm.Instruction.Decode
import Jvm.Proofs.Code.Format
import Jvm.Proofs.Monad

/-!
# Decoded instructions tile their code

`scan` walks from one instruction to the next and `resolve` turns displacements into indices. Here
the walk is described by the byte format alone: `Cut code offset l` says that `l` is what the format
cuts out of `code` from `offset` on, and `Tiles code l` says of a decoded method where each of its
instructions stands, what it is and where its branches lead.

Main theorem `decode_tiles`: what `decode` gives tiles the code it was given, with no gap and no
overlap.
-/

namespace Jvm

namespace Format

/-- The instruction at `offset`, as the bytes give it. -/
def instruction (code : Bytes) (offset : Nat) : Instruction Int :=
  ⟨offset, opcode code offset, operand (opcode code offset) code offset⟩

end Format

namespace Code

/-! ## Cutting code into instructions -/

/-- What the format cuts out of `code` from `offset` on. -/
inductive Cut (code : Bytes) : Nat → List (Instruction Int) → Prop
  | done : Cut code code.length []
  | undefined {offset : Nat} : offset < code.length → ¬Format.defined (code.byteAt offset) →
      Cut code offset [Format.instruction code offset]
  | next {offset : Nat} {later : List (Instruction Int)} : offset < code.length →
      Format.defined (code.byteAt offset) → Cut code (offset + Format.length code offset) later →
      Cut code offset (Format.instruction code offset :: later)

theorem scan_drop {code : Bytes} {offset : Nat} (h : offset < code.length) :
    scan offset (code.drop offset) =
      if code.length < offset + Format.length code offset then .error (.truncated offset)
      else if Format.defined (code.byteAt offset) then
        (scan (offset + Format.length code offset) (code.drop (offset + Format.length code offset))).map
          (Format.instruction code offset :: ·)
      else .ok [Format.instruction code offset] := by
  have hpos := Format.length_pos code offset
  rw [Bytes.drop_eq_cons h, scan, Format.read?_eq h, Format.instruction?]
  by_cases hlen : code.length < offset + Format.length code offset
  · rw [if_pos hlen, if_neg (Nat.not_le_of_lt hlen)]
  · rw [if_neg hlen, if_pos (Nat.le_of_not_lt hlen)]
    simp only [Format.undefined_iff]
    by_cases hdef : Format.defined (code.byteAt offset) = true
    · rw [if_pos hdef, if_neg (not_not_intro hdef)]
      rw [Encoded.size, Nat.sub_add_cancel hpos, List.drop_drop, Nat.add_assoc offset 1,
        Nat.add_sub_cancel' hpos]
      cases scan (offset + Format.length code offset) (code.drop (offset + Format.length code offset)) <;> rfl
    · rw [if_neg hdef, if_pos hdef]
      rfl

/-- A scan that succeeds cuts the code. -/
theorem cut_of_scan {code : Bytes} {offset : Nat} {l : List (Instruction Int)} (hle : offset ≤ code.length)
    (h : scan offset (code.drop offset) = .ok l) : Cut code offset l := by
  induction hn : code.length - offset using Nat.strong_induction_on generalizing offset l with
  | _ n ih =>
    rcases Nat.lt_or_ge offset code.length with hlt | hge
    · have hpos := Format.length_pos code offset
      rw [scan_drop hlt] at h
      split at h
      · cases h
      · split at h
        · rename_i hlen hdef
          cases hlater : scan (offset + Format.length code offset)
              (code.drop (offset + Format.length code offset)) with
          | error e =>
            rw [hlater] at h
            cases h
          | ok later =>
            rw [hlater] at h
            cases h
            exact .next hlt hdef (ih _ (by omega) (Nat.le_of_not_lt hlen) hlater rfl)
        · rename_i hdef
          cases h
          exact .undefined hlt hdef
    · obtain rfl : offset = code.length := Nat.le_antisymm hle hge
      rw [List.drop_length, scan] at h
      cases h
      exact .done

section
variable {code : Bytes} {offset : Nat} {l : List (Instruction Int)}

theorem Cut.offset_head {inst : Instruction Int} (h : Cut code offset l) (hhead : l[0]? = some inst) :
    inst.offset = offset := by
  cases h with
  | done => simp at hhead
  | undefined | next =>
    simp only [List.getElem?_cons_zero, Option.some.injEq] at hhead
    rw [← hhead]
    rfl

theorem Cut.eq_nil_iff (h : Cut code offset l) : l = [] ↔ offset = code.length := by
  cases h with
  | done => simp
  | undefined hlt | next hlt => simp [Nat.ne_of_lt hlt]

theorem Cut.of_mem {inst : Instruction Int} (h : Cut code offset l) (hmem : inst ∈ l) :
    inst.offset < code.length ∧ inst = Format.instruction code inst.offset := by
  induction h with
  | done => simp at hmem
  | undefined hlt =>
    obtain rfl := List.mem_singleton.1 hmem
    exact ⟨hlt, rfl⟩
  | next hlt _ _ ih =>
    rcases List.mem_cons.1 hmem with rfl | hlater
    · exact ⟨hlt, rfl⟩
    · exact ih hlater

/-- Between two instructions there is nothing, and the first of them is a whole one. -/
theorem Cut.adjacent {i : Nat} {inst following : Instruction Int} (h : Cut code offset l)
    (hi : l[i]? = some inst) (hnext : l[i + 1]? = some following) :
    Format.defined (code.byteAt inst.offset) ∧
      following.offset = inst.offset + Format.length code inst.offset := by
  induction h generalizing i with
  | done => simp at hi
  | undefined => simp at hnext
  | next _ hdef hlater ih =>
    cases i with
    | zero =>
      simp only [List.getElem?_cons_zero, Option.some.injEq] at hi
      obtain rfl := hi
      exact ⟨hdef, hlater.offset_head (by simpa using hnext)⟩
    | succ i => exact ih (by simpa using hi) (by simpa using hnext)

theorem Cut.getLast {inst : Instruction Int} (h : Cut code offset l) (hlast : l.getLast? = some inst)
    (hdef : Format.defined (code.byteAt inst.offset)) :
    inst.offset + Format.length code inst.offset = code.length := by
  induction h with
  | done => simp at hlast
  | undefined _ hundefined =>
    simp only [List.getLast?_singleton, Option.some.injEq] at hlast
    obtain rfl := hlast
    exact absurd hdef hundefined
  | @next offset later hlt _ hlater ih =>
    cases hnil : later.getLast? with
    | some inst' => exact ih (by rw [← hlast, List.getLast?_cons, hnil]; simp)
    | none =>
      obtain rfl := List.getLast?_eq_none_iff.1 hnil
      simp only [List.getLast?_singleton, Option.some.injEq] at hlast
      obtain rfl := hlast
      exact hlater.eq_nil_iff.1 rfl

/-- Every byte from `offset` on is in some instruction, or behind an undefined one. -/
theorem Cut.covers {p : Nat} (h : Cut code offset l) (hle : offset ≤ p) (hlt : p < code.length) :
    ∃ (i : Nat) (inst : Instruction Int), l[i]? = some inst ∧ inst.offset ≤ p ∧
      (p < inst.offset + Format.length code inst.offset ∨
        i + 1 = l.length ∧ ¬Format.defined (code.byteAt inst.offset)) := by
  induction h with
  | done => omega
  | @undefined offset hoffset hundefined => exact ⟨0, _, rfl, hle, .inr ⟨rfl, hundefined⟩⟩
  | @next offset later hoffset hdef hlater ih =>
    rcases Nat.lt_or_ge p (offset + Format.length code offset) with hin | hout
    · exact ⟨0, _, rfl, hle, .inl hin⟩
    · obtain ⟨i, inst, hi, hinst, hcovers⟩ := ih hout
      refine ⟨i + 1, inst, by simpa using hi, hinst, ?_⟩
      rcases hcovers with hin | ⟨hlast, hundefined⟩
      · exact .inl hin
      · exact .inr ⟨by rw [List.length_cons, hlast], hundefined⟩

end

/-! ## Resolving branches -/

/-- What the operand of a decoded instruction of `l` must be, when the bytes give it another: a
branch holds the index of the instruction at its own offset plus the displacement. -/
def Resolves (l : Code) (offset : Nat) : Operand Int → Operand Nat → Prop
  | .none, operand => operand = .none
  | .int v, operand => operand = .int v
  | .index i, operand => operand = .index i
  | .slot i, operand => operand = .slot i
  | .increment i delta, operand => operand = .increment i delta
  | .branch displacement, operand =>
    ∃ index target, operand = .branch index ∧ l[index]? = some target ∧
      (target.offset : Int) = offset + displacement

/-- The instructions of `l` are those that the format finds in `code`, one after the other. -/
structure Tiles (code : Bytes) (l : Code) : Prop where
  /-- Only empty code has no instructions. -/
  empty : l = #[] ↔ code = []
  /-- The first instruction stands at the start. -/
  start : ∀ inst, l[0]? = some inst → inst.offset = 0
  /-- The next one stands where this one ends. -/
  next : ∀ i inst following, l[i]? = some inst → l[i + 1]? = some following →
    Format.defined (code.byteAt inst.offset) ∧
      following.offset = inst.offset + Format.length code inst.offset
  /-- The last one ends where the code does. -/
  last : ∀ inst, l.back? = some inst → Format.defined (code.byteAt inst.offset) →
    inst.offset + Format.length code inst.offset = code.length
  /-- An undefined byte, which can only start the last one, is kept as it is. -/
  undefined : ∀ inst, l.back? = some inst → ¬Format.defined (code.byteAt inst.offset) →
    inst.opcode = .unknown (code.byteAt inst.offset) ∧ inst.operand = .none
  inside : ∀ inst ∈ l, inst.offset < code.length
  opcode : ∀ inst ∈ l, Format.Encodes inst.opcode code inst.offset
  operand : ∀ inst ∈ l, Resolves l inst.offset (Format.operand inst.opcode code inst.offset) inst.operand

theorem getElem_of_indexAt? {l : List (Instruction Int)} {target : Int} {index : Nat}
    (h : indexAt? l target = some index) : ∃ inst, l[index]? = some inst ∧ (inst.offset : Int) = target := by
  obtain ⟨hlt, hoffset, -⟩ := List.findIdx?_eq_some_iff_getElem.1 h
  exact ⟨l[index], List.getElem?_eq_getElem hlt, by simpa using hoffset⟩

section
variable {cut : List (Instruction Int)} {l : Code} {inst : Instruction Int} {inst' : Instruction Nat}

theorem kept_of_resolve (h : resolve cut inst = .ok inst') :
    inst'.offset = inst.offset ∧ inst'.opcode = inst.opcode := by
  obtain ⟨operand, -, rfl⟩ := exists_of_map_ok h
  exact ⟨rfl, rfl⟩

theorem resolves_of_resolve (h : resolve cut inst = .ok inst')
    (hoffset : ∀ (i : Nat) (target : Instruction Int), cut[i]? = some target →
      ∃ target', l[i]? = some target' ∧ target'.offset = target.offset) :
    Resolves l inst.offset inst.operand inst'.operand := by
  obtain ⟨offset, opcode, operand⟩ := inst
  cases operand with
  | branch displacement =>
    cases hindex : indexAt? cut (offset + displacement) with
    | none =>
      simp only [resolve, Operand.mapTarget, hindex] at h
      cases h
    | some index =>
      simp only [resolve, Operand.mapTarget, hindex] at h
      cases h
      obtain ⟨target, hget, htarget⟩ := getElem_of_indexAt? hindex
      obtain ⟨target', hget', heq⟩ := hoffset index target hget
      exact ⟨index, target', rfl, hget', by rw [heq, htarget]⟩
  | _ =>
    cases h
    exact rfl

end

/-- A decoded method is a cut of its code with the branches resolved, instruction by instruction. -/
theorem of_decode {code : Bytes} {l : Code} (h : decode code = .ok l) :
    ∃ cut, Cut code 0 cut ∧ cut.length = l.size ∧
      ∀ (i : Nat) (inst' : Instruction Nat), l[i]? = some inst' → ∃ inst, cut[i]? = some inst ∧
        inst'.offset = inst.offset ∧ inst'.opcode = inst.opcode ∧
        Resolves l inst.offset inst.operand inst'.operand := by
  obtain ⟨cut, hscan, h⟩ := exists_of_bind_ok h
  obtain ⟨resolved, hresolve, h⟩ := exists_of_bind_ok h
  cases h
  obtain ⟨hlen, hpoint⟩ := pointwise_of_mapM hresolve
  refine ⟨cut, cut_of_scan (Nat.zero_le _) hscan, hlen, fun i inst' hi => ?_⟩
  rw [List.getElem?_toArray] at hi
  have hlt : i < cut.length := by
    rw [hlen]
    exact (List.getElem?_eq_some_iff.1 hi).1
  have hinst := hpoint i cut[i] inst' (List.getElem?_eq_getElem hlt) hi
  obtain ⟨hoffset, hopcode⟩ := kept_of_resolve hinst
  refine ⟨cut[i], List.getElem?_eq_getElem hlt, hoffset, hopcode, resolves_of_resolve hinst ?_⟩
  intro j target htarget
  have hltj : j < resolved.length := by
    rw [← hlen]
    exact (List.getElem?_eq_some_iff.1 htarget).1
  have hj := hpoint j target resolved[j] htarget (List.getElem?_eq_getElem hltj)
  exact ⟨resolved[j], by rw [List.getElem?_toArray, List.getElem?_eq_getElem hltj], (kept_of_resolve hj).1⟩

theorem format_of_decode {code : Bytes} {l : Code} {inst : Instruction Nat} (h : decode code = .ok l)
    (hinst : inst ∈ l) : inst.offset < code.length ∧ inst.opcode = Format.opcode code inst.offset ∧
      Resolves l inst.offset (Format.operand inst.opcode code inst.offset) inst.operand := by
  obtain ⟨cut, hcut, -, hback⟩ := of_decode h
  obtain ⟨i, hi⟩ := Array.mem_iff_getElem?.1 hinst
  obtain ⟨cutInst, hcutInst, hoffset, hopcode, hresolves⟩ := hback i inst hi
  obtain ⟨hlt, hformat⟩ := hcut.of_mem (List.mem_of_getElem? hcutInst)
  rw [hformat] at hresolves hopcode
  rw [hopcode, hoffset]
  exact ⟨hlt, rfl, hresolves⟩

theorem tiles_of_decode {code : Bytes} {l : Code} (h : decode code = .ok l) : Tiles code l := by
  obtain ⟨cut, hcut, hsize, hback⟩ := of_decode h
  have hlast : ∀ inst', l.back? = some inst' →
      ∃ inst, cut.getLast? = some inst ∧ inst'.offset = inst.offset := by
    intro inst' hinst'
    obtain ⟨inst, hinst, hoffset, -⟩ := hback _ inst' hinst'
    rw [← hsize, ← List.getLast?_eq_getElem?] at hinst
    exact ⟨inst, hinst, hoffset⟩
  constructor
  case empty =>
    rw [← Array.size_eq_zero_iff, ← hsize, List.length_eq_zero_iff, hcut.eq_nil_iff, eq_comm,
      List.length_eq_zero_iff]
  case start =>
    intro inst' hinst'
    obtain ⟨inst, hinst, hoffset, -⟩ := hback 0 inst' hinst'
    rw [hoffset, hcut.offset_head hinst]
  case next =>
    intro i inst' following' hinst' hnext'
    obtain ⟨inst, hinst, hoffset, -⟩ := hback i inst' hinst'
    obtain ⟨following, hnext, hoffset', -⟩ := hback (i + 1) following' hnext'
    rw [hoffset, hoffset']
    exact hcut.adjacent hinst hnext
  case last =>
    intro inst' hinst' hdef
    obtain ⟨inst, hinst, hoffset⟩ := hlast inst' hinst'
    rw [hoffset] at hdef ⊢
    exact hcut.getLast hinst hdef
  case undefined =>
    intro inst' hinst' hundefined
    obtain ⟨-, hopcode, hresolves⟩ := format_of_decode h (Array.mem_of_back? hinst')
    rw [Format.opcode_of_undefined hundefined] at hopcode
    rw [hopcode, Format.operand_unknown] at hresolves
    exact ⟨hopcode, hresolves⟩
  case inside => exact fun inst' hinst' => (format_of_decode h hinst').1
  case opcode =>
    intro inst' hinst'
    rw [(format_of_decode h hinst').2.1]
    exact Format.encodes_opcode code inst'.offset
  case operand => exact fun inst' hinst' => (format_of_decode h hinst').2.2

/-! ## No gap and no overlap -/

/-- Byte `p` is one of the instruction's. -/
def Holds (code : Bytes) (inst : Instruction Nat) (p : Nat) : Prop :=
  inst.offset ≤ p ∧ p < inst.offset + Format.length code inst.offset

theorem Tiles.end_le {code : Bytes} {l : Code} {i j : Nat} {inst later : Instruction Nat} (h : Tiles code l)
    (hlt : i < j) (hi : l[i]? = some inst) (hj : l[j]? = some later) :
    inst.offset + Format.length code inst.offset ≤ later.offset := by
  induction j generalizing later with
  | zero => omega
  | succ j ih =>
    have hjlt : j < l.size := by
      have := (Array.getElem?_eq_some_iff.1 hj).1
      omega
    have hprev : l[j]? = some l[j] := Array.getElem?_eq_getElem hjlt
    obtain ⟨-, hnext⟩ := h.next j l[j] later hprev hj
    rcases Nat.lt_or_ge i j with hij | hij
    · have := ih hij hprev
      omega
    · obtain rfl : i = j := by omega
      obtain rfl := Option.some.inj (hi.symm.trans hprev)
      exact Nat.le_of_eq hnext.symm

/-- No two instructions share a byte. -/
theorem Tiles.eq_of_holds {code : Bytes} {l : Code} {i j p : Nat} {inst inst' : Instruction Nat}
    (h : Tiles code l) (hi : l[i]? = some inst) (hp : Holds code inst p) (hj : l[j]? = some inst')
    (hp' : Holds code inst' p) : i = j := by
  obtain ⟨hge, hlt⟩ := hp
  obtain ⟨hge', hlt'⟩ := hp'
  rcases Nat.lt_trichotomy i j with hij | hij | hij
  · have := h.end_le hij hi hj
    omega
  · exact hij
  · have := h.end_le hij hj hi
    omega

/-- **Decode.** A decoded method tiles its code: each byte is in exactly one instruction, unless it
comes after an undefined one. -/
theorem decode_tiles (code : Bytes) (l : Code) (h : decode code = .ok l) :
    Tiles code l ∧
      ∀ p < code.length, (∃! i : Nat, ∃ inst, l[i]? = some inst ∧ Holds code inst p) ∨
        ∃ inst, l.back? = some inst ∧ ¬Format.defined (code.byteAt inst.offset) ∧ inst.offset < p := by
  have htiles := tiles_of_decode h
  refine ⟨htiles, fun p hp => ?_⟩
  obtain ⟨cut, hcut, hsize, hback⟩ := of_decode h
  obtain ⟨i, cutInst, hi, hle, hcovers⟩ := hcut.covers (Nat.zero_le p) hp
  have hlt : i < l.size := by
    rw [← hsize]
    exact (List.getElem?_eq_some_iff.1 hi).1
  have hget : l[i]? = some l[i] := Array.getElem?_eq_getElem hlt
  have hoffset : l[i].offset = cutInst.offset := by
    obtain ⟨other, hother, hoffset, -⟩ := hback i l[i] hget
    rw [hoffset, Option.some.inj (hother.symm.trans hi)]
  rw [← hoffset] at hle hcovers
  by_cases hin : p < l[i].offset + Format.length code l[i].offset
  · refine .inl ⟨i, ⟨l[i], hget, hle, hin⟩, ?_⟩
    rintro j ⟨inst, hj, hholds⟩
    exact htiles.eq_of_holds hj hholds hget ⟨hle, hin⟩
  · obtain ⟨hlast, hundefined⟩ := hcovers.resolve_left hin
    refine .inr ⟨l[i], ?_, hundefined, ?_⟩
    · rw [Array.back?, ← hsize, ← hlast]
      exact hget
    · rw [Format.length_of_undefined hundefined] at hin
      omega

/-- A loop with a `wide` instruction, a switch and, after the jump back, an undefined byte. -/
def Sample.loop : Bytes := [
  0x03, 0xc4, 0x84, 0x00, 0x01, 0xff, 0xfe,
  0xaa, 0, 0, 0, 17, 0, 0, 0, 0, 0, 0, 0, 0, 0, 0, 0, 17,
  0xa7, 0xff, 0xe9, 0xca, 0x00]

def Sample.decodedLoop : Code := #[
  ⟨0, .iconst0, .int 0⟩, ⟨1, .iinc, .increment 1 (-2)⟩, ⟨7, .unknown 0xaa, .none⟩, ⟨24, .goto, .branch 1⟩,
  ⟨27, .unknown 0xca, .none⟩]

theorem decode_tiles_loop :
    decode Sample.loop = .ok Sample.decodedLoop ∧ Tiles Sample.loop Sample.decodedLoop := by
  have h : decode Sample.loop = .ok Sample.decodedLoop := by cbv
  exact ⟨h, (decode_tiles _ _ h).1⟩

end Code

end Jvm
