import Jvm.Proofs.ClassFile.Slots

/-!
# A class file says where it ends

Bytes that are a class file are one whatever follows them, and any fewer of them are truncated. A fault stays
as well, whatever follows.

The counter of the slots may run over on the way (`RunsOver`). It starts again at zero then, where a program that
checks its arithmetic comes to an end. The bytes that are read decide about this too (`runsOver_append_iff`), so what
is said of the parser is also true of that program. Main theorem `parse_delimited`.
-/

namespace Jvm

open Bytes Reader

/-! ## Counters that run over -/

namespace Constant
variable {count : UInt16} {input : Bytes} {s : PoolState}

/-- With this behind what is left to read. -/
def PoolState.followed (s : PoolState) (more : Bytes) : PoolState := { s with rest := s.rest ++ more }

/-- A longer input is read in the same way. -/
theorem Reading.append (h : Reading count input s) (more : Bytes) :
    Reading count (input ++ more) (s.followed more) := by
  induction h with
  | start => exact .start
  | next _ hlt hread ih => exact ih.next hlt ((delimits_read _).append hread more)

section
variable (hne : readPool (ofWord16 count ++ input) ≠ .error .truncated) {more : Bytes}
include hne

/-- A constant that is read off the longer input is all in the shorter one, or else that one is truncated. -/
theorem Reading.exists_read {c : Constant} {rest : Bytes} (h : Reading count input s) (hlt : s.next < count)
    (hread : read s.next (s.rest ++ more) = .ok (c, rest)) :
    ∃ short, read s.next s.rest = .ok (c, short) ∧ rest = short ++ more :=
  (delimits_read s.next).exists_of_append hread fun he => hne (h.readPool_of_error hlt he)

/-- A shorter input is read in the same way. -/
theorem Reading.of_append (h : Reading count (input ++ more) s) :
    ∃ short, Reading count input short ∧ s = short.followed more := by
  induction h with
  | start => exact ⟨_, .start, rfl⟩
  | next _ hlt hread ih =>
    obtain ⟨short, hshort, rfl⟩ := ih
    obtain ⟨rest, hfirst, rfl⟩ := hshort.exists_read hne hlt hread
    exact ⟨_, hshort.next hlt hfirst, rfl⟩

theorem RunsOver.of_append (h : RunsOver count (input ++ more)) : RunsOver count input := by
  obtain ⟨rfl, s, c, rest, hs, hnext, hread, hwide⟩ := h
  obtain ⟨short, hshort, rfl⟩ := hs.of_append hne
  have hlt : short.next < 65535 := by
    rw [show short.next = 65534 from hnext]
    decide
  obtain ⟨rest, hfirst, -⟩ := hshort.exists_read hne hlt hread
  exact ⟨rfl, short, c, rest, hshort, hnext, hfirst, hwide⟩

end

theorem RunsOver.append (h : RunsOver count input) (more : Bytes) : RunsOver count (input ++ more) := by
  obtain ⟨hcount, s, c, rest, hs, hnext, hread, hwide⟩ := h
  exact ⟨hcount, _, c, rest ++ more, hs.append more, hnext, (delimits_read _).append hread more, hwide⟩

end Constant

namespace ClassFile
variable {bytes : Bytes}

/-- The counter of the slots runs over while the class file at the front is read. -/
def RunsOver (bytes : Bytes) : Prop :=
  ∃ version count input, readVersion bytes = .ok (version, ofWord16 count ++ input) ∧ Constant.RunsOver count input

theorem parse_of_readVersion_error {e : ParseError} (h : readVersion bytes = .error e) : parse bytes = .error e := by
  rw [parse, read, Delimits.bind_error h]
  rfl

theorem parse_of_readPool_error {version : UInt16 × UInt16} {rest : Bytes} {e : ParseError}
    (h : readVersion bytes = .ok (version, rest)) (he : Constant.readPool rest = .error e) :
    parse bytes = .error e := by
  rw [parse, read, Delimits.bind_ok h]
  exact congrArg (Except.map Prod.fst) (Delimits.bind_error he)

theorem RunsOver.append (h : RunsOver bytes) (more : Bytes) : RunsOver (bytes ++ more) := by
  obtain ⟨version, count, input, hversion, hover⟩ := h
  refine ⟨version, count, input ++ more, ?_, hover.append more⟩
  rw [delimits_readVersion.append hversion, List.append_assoc]

theorem RunsOver.of_append (hne : parse bytes ≠ .error .truncated) {more : Bytes} (h : RunsOver (bytes ++ more)) :
    RunsOver bytes := by
  obtain ⟨version, count, input, hversion, hover⟩ := h
  obtain ⟨rest, hfirst, hrest⟩ :=
    delimits_readVersion.exists_of_append hversion fun he => hne (parse_of_readVersion_error he)
  match rest with
  | [] | [_] => exact absurd (parse_of_readPool_error hfirst rfl) hne
  | hi :: lo :: tail =>
    obtain ⟨hcount, rfl⟩ := List.append_inj (show ofWord16 count ++ input = [hi, lo] ++ (tail ++ more) from hrest) rfl
    rw [show hi :: lo :: tail = ofWord16 count ++ tail by rw [hcount]; rfl] at hfirst
    exact ⟨version, count, tail, hfirst, hover.of_append fun he => hne (parse_of_readPool_error hfirst he)⟩

/-- The bytes that are read decide whether the counter runs over. -/
theorem runsOver_append_iff (hne : parse bytes ≠ .error .truncated) (more : Bytes) :
    RunsOver (bytes ++ more) ↔ RunsOver bytes :=
  ⟨RunsOver.of_append hne, fun h => h.append more⟩

/-! ## Where a class file ends -/

/-- **A class file says where it ends.** Some of the bytes are a class file whatever follows them, and any
fewer of them are truncated. A fault that is found stays, whatever follows. The counter of the slots runs over
in a longer input if it does so here, and in fewer bytes only then. -/
theorem parse_delimited (bytes : Bytes) :
    (∀ file, parse bytes = .ok file → ∃ n ≤ bytes.length,
      (∀ input, bytes.take n <+: input → parse input = .ok file ∧ (RunsOver input ↔ RunsOver bytes)) ∧
      ∀ k < n, parse (bytes.take k) = .error .truncated ∧ (RunsOver (bytes.take k) → RunsOver bytes)) ∧
    ∀ e, parse bytes = .error e → e ≠ .truncated → ∀ more,
      parse (bytes ++ more) = .error e ∧ (RunsOver (bytes ++ more) ↔ RunsOver bytes) := by
  refine ⟨fun file h => ?_, fun e h hne more => ⟨parse_append h hne more, runsOver_append_iff ?_ more⟩⟩
  · obtain ⟨used, ⟨rest, rfl⟩, hends, htruncates⟩ := exists_used h
    have hused : parse used ≠ .error .truncated := by
      intro htruncated
      have hnil := hends []
      rw [List.append_nil, htruncated] at hnil
      cases hnil
    refine ⟨used.length, by simp, fun input hinput => ?_, fun k hk => ⟨?_, fun hover => ?_⟩⟩
    · rw [List.take_left] at hinput
      obtain ⟨more, rfl⟩ := hinput
      exact ⟨hends more, by rw [runsOver_append_iff hused, runsOver_append_iff hused]⟩
    · rw [List.take_append_of_le_length hk.le]
      refine htruncates _ (used.drop k) (List.take_append_drop k used).symm ?_
      rw [Ne, List.drop_eq_nil_iff]
      exact Nat.not_le.2 hk
    · rw [← List.take_append_drop k (used ++ rest)]
      exact hover.append _
  · rw [h]
    exact fun heq => hne (Except.error.inj heq)

/-- Code inside of code, with a byte behind the file, and a first word with one bit too many. -/
theorem parse_delimited_nestedCode :
    (∃ n ≤ (Written.ClassFile.nestedCode.write ++ [0]).length,
      (∀ input, (Written.ClassFile.nestedCode.write ++ [0]).take n <+: input →
        parse input = .ok Written.ClassFile.nestedCode.file) ∧
      ∀ k < n, parse ((Written.ClassFile.nestedCode.write ++ [0]).take k) = .error .truncated) ∧
    ∀ more, parse ([0xca, 0xfe, 0xba, 0xbf] ++ more) = .error (.invalidMagic 0xcafebabf) := by
  have hread := Written.ClassFile.reads_read Written.ClassFile.nestedCode_fits (List.prefix_append _ [0]).length_le [0]
  have hparse : parse (Written.ClassFile.nestedCode.write ++ [0]) = .ok Written.ClassFile.nestedCode.file := by
    rw [parse, hread]
    rfl
  obtain ⟨n, hn, hends, htruncates⟩ := (parse_delimited _).1 _ hparse
  exact ⟨⟨n, hn, fun input hinput => (hends input hinput).1, fun k hk => (htruncates k hk).1⟩,
    fun more => ((parse_delimited [0xca, 0xfe, 0xba, 0xbf]).2 _ rfl (by decide) more).1⟩

end ClassFile

end Jvm
