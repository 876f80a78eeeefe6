import Jvm.Proofs.Code.Faults

/-!
# Code in pieces

Code that is put behind other code decodes as it does alone, with its offsets and branches moved, as
long as the code in front ends at a multiple of four, so that switches keep their padding. The code in
front does not notice what follows it, unless it ends in an undefined byte, where a scan stops.

How one instruction is read is `read?_append` and `read?_congr`, the cut of the whole
`Cut.append_right` and `Cut.append`, and its branches are `resolve_append` and `resolve_moved`. Main
theorem `decode_append`.
-/

namespace Jvm

/-! ## One instruction -/

namespace Encoded
variable {offset offset' : Nat} {byte : UInt8} {rest : Bytes} {opcode : Opcode} {e : Encoded}

theorem plain?_append {count : Nat} (h : plain? opcode count rest = some e) (more : Bytes) :
    plain? opcode count (rest ++ more) = some e := by
  unfold plain? at h ⊢
  split at h
  · rename_i hcount
    rw [Bytes.hasAtLeast_iff] at hcount
    rwa [if_pos (Bytes.hasAtLeast_iff.2 (by rw [List.length_append]; omega))]
  · cases h

/-- What is behind the padding of a switch, if anything is. -/
theorem drop_append_of_cons {n : Nat} {a : UInt8} {words : Bytes} (h : rest.drop n = a :: words) (more : Bytes) :
    (rest ++ more).drop n = a :: (words ++ more) := by
  have hle : n ≤ rest.length := by
    by_contra hlt
    rw [List.drop_eq_nil_of_le (by omega)] at h
    cases h
  rw [List.drop_append_of_le_length hle, h, List.cons_append]

theorem readWide?_append (h : readWide? rest = some e) (more : Bytes) : readWide? (rest ++ more) = some e := by
  unfold readWide? at h
  split at h
  · rename_i inner hi lo later
    simp only [List.cons_append, readWide?]
    cases hlayout : Layout.ofByte inner with
    | increment =>
      simp only [hlayout] at h ⊢
      split at h
      · exact h
      · cases h
    | _ =>
      simp only [hlayout] at h ⊢
      exact h
  · cases h

theorem readTableSwitch?_append (h : readTableSwitch? opcode offset rest = some e) (more : Bytes) :
    readTableSwitch? opcode offset (rest ++ more) = some e := by
  unfold readTableSwitch? at h ⊢
  split at h
  · rename_i hwords
    simp only [drop_append_of_cons hwords more, List.cons_append]
    exact plain?_append h more
  · cases h

theorem readLookupSwitch?_append (h : readLookupSwitch? opcode offset rest = some e) (more : Bytes) :
    readLookupSwitch? opcode offset (rest ++ more) = some e := by
  unfold readLookupSwitch? at h ⊢
  split at h
  · rename_i hwords
    simp only [drop_append_of_cons hwords more, List.cons_append]
    exact plain?_append h more
  · cases h

/-- An instruction that is there as a whole is not changed by what follows it. -/
theorem read?_append (h : read? offset byte rest = some e) (more : Bytes) :
    read? offset byte (rest ++ more) = some e := by
  unfold read? at h ⊢
  simp only at h ⊢
  cases hlayout : Layout.ofByte byte with
  | implied | undefined =>
    simp only [hlayout] at h ⊢
    exact h
  | byteInt | byteIndex | byteSlot =>
    simp only [hlayout] at h ⊢
    cases rest with
    | nil => cases h
    | cons a rest => exact h
  | wordInt | wordIndex | increment | branch =>
    simp only [hlayout] at h ⊢
    match rest, h with
    | a :: b :: rest, h => exact h
  | wide =>
    simp only [hlayout] at h ⊢
    exact readWide?_append h more
  | tableSwitch =>
    simp only [hlayout] at h ⊢
    exact readTableSwitch?_append h more
  | lookupSwitch =>
    simp only [hlayout] at h ⊢
    exact readLookupSwitch?_append h more
  | skipped count =>
    simp only [hlayout] at h ⊢
    exact plain?_append h more

/-- The place of an instruction makes no difference but for its remainder modulo four. -/
theorem read?_congr (h : offset % 4 = offset' % 4) (byte : UInt8) (rest : Bytes) :
    read? offset byte rest = read? offset' byte rest := by
  have hpadding : padding offset = padding offset' := by
    unfold padding
    omega
  simp only [read?, readTableSwitch?, readLookupSwitch?, hpadding]

end Encoded

namespace Format
variable {code c₁ c₂ : Bytes} {offset : Nat} {e : Encoded}

theorem byteAt_append_left (h : offset < c₁.length) (c₂ : Bytes) :
    (c₁ ++ c₂).byteAt offset = c₁.byteAt offset := by
  simp only [Bytes.byteAt, List.getD_eq_getElem?_getD, List.getElem?_append_left h]

theorem byteAt_append_right (c₁ c₂ : Bytes) (offset : Nat) :
    (c₁ ++ c₂).byteAt (c₁.length + offset) = c₂.byteAt offset := by
  simp only [Bytes.byteAt, List.getD_eq_getElem?_getD, List.getElem?_append_right (Nat.le_add_right _ _),
    Nat.add_sub_cancel_left]

theorem instruction?_of_fits (h : offset + length code offset ≤ code.length) :
    instruction? code offset =
      some ⟨opcode code offset, operand (opcode code offset) code offset, length code offset - 1⟩ := if_pos h

/-- What the format finds is the instruction with its length. -/
theorem of_instruction? (h : instruction? code offset = some e) :
    instruction code offset = ⟨offset, e.opcode, e.operand⟩ ∧ length code offset = e.size := by
  have hpos := length_pos code offset
  unfold instruction? at h
  split at h
  · cases h
    exact ⟨rfl, (Nat.sub_add_cancel hpos).symm⟩
  · cases h

theorem instruction?_append (hlt : offset < c₁.length) (h : instruction? c₁ offset = some e) (c₂ : Bytes) :
    instruction? (c₁ ++ c₂) offset = some e := by
  rw [← read?_eq hlt] at h
  rw [← read?_eq (by rw [List.length_append]; omega), byteAt_append_left hlt,
    List.drop_append_of_le_length (Nat.succ_le_of_lt hlt)]
  exact Encoded.read?_append h c₂

theorem instruction?_moved (hmod : c₁.length % 4 = 0) (hlt : offset < c₂.length) :
    instruction? (c₁ ++ c₂) (c₁.length + offset) = instruction? c₂ offset := by
  have hdrop : (c₁ ++ c₂).drop (c₁.length + offset + 1) = c₂.drop (offset + 1) := by
    rw [Nat.add_assoc, ← List.drop_drop, List.drop_left]
  rw [← read?_eq hlt, ← read?_eq (by rw [List.length_append]; omega), byteAt_append_right, hdrop]
  exact Encoded.read?_congr (by omega) _ _

end Format

/-! ## The scan -/

/-- The instruction so many bytes further on. -/
def Instruction.moved {τ : Type} (bytes : Nat) (inst : Instruction τ) : Instruction τ :=
  { inst with offset := bytes + inst.offset }

/-- The operand with a branch aimed so many instructions further on. -/
def Operand.later (count : Nat) : Operand Nat → Operand Nat
  | .branch target => .branch (count + target)
  | operand => operand

/-- The instruction behind code of so many bytes and so many instructions. -/
def Instruction.behind (bytes count : Nat) (inst : Instruction Nat) : Instruction Nat :=
  { inst.moved bytes with operand := inst.operand.later count }

namespace Code

section
variable {code c₁ c₂ : Bytes} {offset : Nat} {l l₁ l₂ : List (Instruction Int)}

/-- Code that can be cut is scanned. -/
theorem scan_of_cut (h : Cut code offset l) : scan offset (code.drop offset) = .ok l := by
  induction h with
  | done =>
    rw [List.drop_length]
    exact scan.eq_1 _
  | undefined hlt hundefined =>
    rw [scan_drop hlt, Format.length_of_undefined hundefined, if_neg (by omega), if_neg hundefined]
  | next hlt hdef hlater ih =>
    rw [scan_drop hlt, if_neg (Nat.not_lt_of_le hlater.le), if_pos hdef, ih]
    rfl

theorem Cut.append_right (hmod : c₁.length % 4 = 0) (h : Cut c₂ offset l) :
    Cut (c₁ ++ c₂) (c₁.length + offset) (l.map (Instruction.moved c₁.length)) := by
  induction h with
  | done =>
    rw [← List.length_append]
    exact .done
  | @undefined offset hlt hundefined =>
    have hfits : offset + Format.length c₂ offset ≤ c₂.length := by
      rw [Format.length_of_undefined hundefined]
      omega
    have hhere := Format.instruction?_of_fits hfits
    rw [← Format.byteAt_append_right c₁ c₂] at hundefined
    rw [← Format.instruction?_moved hmod hlt] at hhere
    have hcut : Cut (c₁ ++ c₂) (c₁.length + offset) [Format.instruction (c₁ ++ c₂) (c₁.length + offset)] :=
      .undefined (by rw [List.length_append]; omega) hundefined
    rwa [(Format.of_instruction? hhere).1] at hcut
  | @next offset later hlt hdef hlater ih =>
    have hhere := Format.instruction?_of_fits hlater.le
    rw [← Format.byteAt_append_right c₁ c₂] at hdef
    rw [← Format.instruction?_moved hmod hlt] at hhere
    obtain ⟨hinst, hlength⟩ := Format.of_instruction? hhere
    have hsize : Format.length (c₁ ++ c₂) (c₁.length + offset) = Format.length c₂ offset := by
      rw [hlength, Encoded.size, Nat.sub_add_cancel (Format.length_pos c₂ offset)]
    have hcut : Cut (c₁ ++ c₂) (c₁.length + offset)
        (Format.instruction (c₁ ++ c₂) (c₁.length + offset) :: later.map (Instruction.moved c₁.length)) :=
      .next (by rw [List.length_append]; omega) hdef (by rw [hsize, Nat.add_assoc]; exact ih)
    rwa [hinst] at hcut

/-- A cut that does not end in an undefined byte goes on in what follows. -/
theorem Cut.append (h : Cut c₁ offset l₁)
    (hlast : ∀ inst, l₁.getLast? = some inst → Format.defined (c₁.byteAt inst.offset))
    (h₂ : Cut (c₁ ++ c₂) c₁.length l₂) : Cut (c₁ ++ c₂) offset (l₁ ++ l₂) := by
  induction h with
  | done => exact h₂
  | undefined _ hundefined => exact absurd (hlast _ rfl) hundefined
  | @next offset later hlt hdef hlater ih =>
    have hhere := Format.instruction?_append hlt (Format.instruction?_of_fits hlater.le) c₂
    obtain ⟨hinst, hlength⟩ := Format.of_instruction? hhere
    have hsize : Format.length (c₁ ++ c₂) offset = Format.length c₁ offset := by
      rw [hlength, Encoded.size, Nat.sub_add_cancel (Format.length_pos c₁ offset)]
    rw [← Format.byteAt_append_left hlt c₂] at hdef
    have hrest := ih fun inst hinst => hlast inst (by rw [List.getLast?_cons, hinst]; rfl)
    have hcut : Cut (c₁ ++ c₂) offset (Format.instruction (c₁ ++ c₂) offset :: (later ++ l₂)) :=
      .next (by rw [List.length_append]; omega) hdef (by rwa [hsize])
    rwa [hinst] at hcut

end

/-! ## Branches -/

section
variable {l l₁ l₂ : List (Instruction Int)} {inst : Instruction Int} {inst' : Instruction Nat} {bytes : Nat}

theorem indexAt?_append_left {target : Int} {index : Nat} (h : indexAt? l₁ target = some index)
    (l₂ : List (Instruction Int)) : indexAt? (l₁ ++ l₂) target = some index := by
  rw [indexAt?, List.findIdx?_append, ← indexAt?, h, Option.some_or]

/-- Instructions behind others are found so many places further on. -/
theorem indexAt?_append_moved (hbefore : ∀ inst ∈ l₁, inst.offset < bytes) {target : Int} {index : Nat}
    (h : indexAt? l₂ target = some index) :
    indexAt? (l₁ ++ l₂.map (Instruction.moved bytes)) (bytes + target) = some (l₁.length + index) := by
  obtain ⟨reached, -, hreached⟩ := getElem_of_indexAt? h
  have hnone : indexAt? l₁ (bytes + target) = none := by
    refine indexAt?_eq_none_iff.2 fun inst hinst => ?_
    have := hbefore inst hinst
    omega
  have hmoved : indexAt? (l₂.map (Instruction.moved bytes)) (bytes + target) = indexAt? l₂ target := by
    rw [indexAt?, indexAt?, List.findIdx?_map]
    congr 1
    funext inst
    simp [Instruction.moved]
  rw [indexAt?, List.findIdx?_append, ← indexAt?, ← indexAt?, hnone, hmoved, h, Option.none_or,
    Option.map_some, Nat.add_comm]

theorem resolve_append (h : resolve l₁ inst = .ok inst') (l₂ : List (Instruction Int)) :
    resolve (l₁ ++ l₂) inst = .ok inst' := by
  obtain ⟨offset, opcode, operand⟩ := inst
  cases operand with
  | branch displacement =>
    cases hindex : indexAt? l₁ (offset + displacement) with
    | none =>
      simp only [resolve, Operand.mapTarget, hindex] at h
      cases h
    | some index =>
      simp only [resolve, Operand.mapTarget, hindex] at h
      simp only [resolve, Operand.mapTarget, indexAt?_append_left hindex]
      exact h
  | _ => exact h

theorem resolve_moved (hbefore : ∀ inst ∈ l₁, inst.offset < bytes) (h : resolve l₂ inst = .ok inst') :
    resolve (l₁ ++ l₂.map (Instruction.moved bytes)) (inst.moved bytes) =
      .ok (inst'.behind bytes l₁.length) := by
  obtain ⟨offset, opcode, operand⟩ := inst
  cases operand with
  | branch displacement =>
    cases hindex : indexAt? l₂ (offset + displacement) with
    | none =>
      simp only [resolve, Operand.mapTarget, hindex] at h
      cases h
    | some index =>
      simp only [resolve, Operand.mapTarget, hindex] at h
      cases h
      have htarget : ((bytes + offset : Nat) : Int) + displacement = bytes + (offset + displacement) := by omega
      simp only [resolve, Instruction.moved, Operand.mapTarget, htarget, indexAt?_append_moved hbefore hindex]
      rfl
  | _ =>
    cases h
    rfl

/-- The last instruction is resolved last. -/
theorem exists_getLast?_of_resolve {resolved : List (Instruction Nat)} (h : l₁.mapM (resolve l₂) = .ok resolved)
    (hlast : l₁.getLast? = some inst) : ∃ inst', resolved.getLast? = some inst' ∧ inst'.offset = inst.offset := by
  obtain ⟨hlength, hpoint⟩ := pointwise_of_mapM h
  rw [List.getLast?_eq_getElem?] at hlast
  have hlt := (List.getElem?_eq_some_iff.1 hlast).1
  rw [hlength] at hlast hlt
  have hget : resolved[resolved.length - 1]? = some resolved[resolved.length - 1] := List.getElem?_eq_getElem hlt
  exact ⟨_, by rwa [List.getLast?_eq_getElem?], (kept_of_resolve (hpoint _ _ _ hlast hget)).1⟩

end

/-- **Code in pieces.** What follows code makes no difference to it, and what is in front of code only
moves it. The place of an instruction makes a difference only modulo four. -/
theorem decode_append (c₁ c₂ : Bytes) (l₁ l₂ : Code) (hmod : c₁.length % 4 = 0) (h₁ : decode c₁ = .ok l₁)
    (hlast : ∀ inst, l₁.back? = some inst → Format.defined (c₁.byteAt inst.offset)) (h₂ : decode c₂ = .ok l₂) :
    decode (c₁ ++ c₂) = .ok (l₁ ++ l₂.map (Instruction.behind c₁.length l₁.size)) ∧
      ∀ offset offset' byte rest, offset % 4 = offset' % 4 →
        Encoded.read? offset byte rest = Encoded.read? offset' byte rest := by
  refine ⟨?_, fun _ _ byte rest hsame => Encoded.read?_congr hsame byte rest⟩
  obtain ⟨cut₁, hscan₁, h₁⟩ := exists_of_bind_ok h₁
  obtain ⟨resolved₁, hresolve₁, h₁⟩ := exists_of_bind_ok h₁
  obtain ⟨cut₂, hscan₂, h₂⟩ := exists_of_bind_ok h₂
  obtain ⟨resolved₂, hresolve₂, h₂⟩ := exists_of_bind_ok h₂
  cases h₁
  cases h₂
  have hcut₁ := cut_of_scan (Nat.zero_le _) hscan₁
  have hcut₂ := cut_of_scan (Nat.zero_le _) hscan₂
  have hbefore : ∀ inst ∈ cut₁, inst.offset < c₁.length := fun inst hinst => (hcut₁.of_mem hinst).1
  have hdefined : ∀ inst, cut₁.getLast? = some inst → Format.defined (c₁.byteAt inst.offset) := by
    intro inst hinst
    obtain ⟨inst', hinst', hoffset⟩ := exists_getLast?_of_resolve hresolve₁ hinst
    rw [← hoffset]
    exact hlast inst' (by rwa [List.back?_toArray])
  have hscan := scan_of_cut (hcut₁.append hdefined (hcut₂.append_right hmod))
  rw [List.drop_zero] at hscan
  have hfirst : cut₁.mapM (resolve (cut₁ ++ cut₂.map (Instruction.moved c₁.length))) = .ok resolved₁ := by
    have := mapM_map_of_ok (φ := id) (ψ := id) hresolve₁ fun inst _ inst' h => resolve_append h
      (cut₂.map (Instruction.moved c₁.length))
    rwa [List.map_id, List.map_id] at this
  have hsecond := mapM_map_of_ok hresolve₂ fun inst _ inst' h => resolve_moved hbefore h
  rw [(pointwise_of_mapM hresolve₁).1] at hsecond
  rw [decode_of_scan_ok hscan, List.mapM_append, hfirst]
  simp only [bind, Except.bind]
  rw [hsecond]
  simp [pure, Except.pure, Except.map]

/-- A loop around a `wide` instruction, which fills a multiple of four bytes. -/
def Sample.wideLoop : Bytes := [0x03, 0xc4, 0x15, 0x01, 0x00, 0xa7, 0xff, 0xfc]

def Sample.decodedWideLoop : Code := #[⟨0, .iconst0, .int 0⟩, ⟨1, .iload, .slot 256⟩, ⟨5, .goto, .branch 1⟩]

/-- The loop with the switch, behind another one. -/
theorem decode_append_loops :
    decode Sample.wideLoop = .ok Sample.decodedWideLoop ∧ decode Sample.loop = .ok Sample.decodedLoop ∧
      decode (Sample.wideLoop ++ Sample.loop) = .ok #[
        ⟨0, .iconst0, .int 0⟩, ⟨1, .iload, .slot 256⟩, ⟨5, .goto, .branch 1⟩,
        ⟨8, .iconst0, .int 0⟩, ⟨9, .iinc, .increment 1 (-2)⟩, ⟨15, .unknown 0xaa, .none⟩, ⟨32, .goto, .branch 4⟩,
        ⟨35, .unknown 0xca, .none⟩] := by
  have hwide : decode Sample.wideLoop = .ok Sample.decodedWideLoop := by cbv
  have hloop : decode Sample.loop = .ok Sample.decodedLoop := by cbv
  have hboth := (decode_append _ _ _ _ rfl hwide (by rintro _ ⟨⟩; decide) hloop).1
  refine ⟨hwide, hloop, ?_⟩
  rw [hboth]
  cbv

end Code

end Jvm
