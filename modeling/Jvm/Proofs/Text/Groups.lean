import Mathlib
import Jvm.Text.ModifiedUtf8

/-!
# Groups of modified UTF-8

The grammar of the byte strings that split into groups, beside the reader `units`: a group is one
byte, or a leading byte with one or two that continue it, and has one 16-bit unit.

`units_eq_some_iff`: the reader finds the groups that are there. `walk_eq`: read out of a memory by
position, as a loop does it, each byte is looked at once and in order, and none behind the last.
-/

namespace Jvm.Text.ModifiedUtf8

/-! ## The grammar -/

/-- A byte that continues a group, by its range. -/
def Continues (b : UInt8) : Prop := 0x80 ≤ b.toNat ∧ b.toNat ≤ 0xbf

/-- The bytes are one group, and `u` is its unit. -/
inductive Group : Bytes → UInt16 → Prop
  | one {a : UInt8} {u : UInt16} : 0x01 ≤ a.toNat → a.toNat ≤ 0x7f → u.toNat = a.toNat → Group [a] u
  | two {a b : UInt8} {u : UInt16} : 0xc0 ≤ a.toNat → a.toNat ≤ 0xdf → Continues b →
      u.toNat = (a.toNat - 0xc0) * 64 + (b.toNat - 0x80) → Group [a, b] u
  | three {a b c : UInt8} {u : UInt16} : 0xe0 ≤ a.toNat → a.toNat ≤ 0xef → Continues b → Continues c →
      u.toNat = (a.toNat - 0xe0) * 4096 + (b.toNat - 0x80) * 64 + (c.toNat - 0x80) → Group [a, b, c] u

/-- The bytes split into groups, which have these units. -/
inductive Groups : Bytes → List UInt16 → Prop
  | nil : Groups [] []
  | cons {first rest : Bytes} {u : UInt16} {us : List UInt16} : Group first u → Groups rest us →
      Groups (first ++ rest) (u :: us)

/-! ## The reader finds the groups -/

theorem isContinuation_iff (b : UInt8) : isContinuation b = true ↔ Continues b := by
  simp only [isContinuation, Continues, Bool.and_eq_true, decide_eq_true_eq]
  omega

theorem toNat_unit2 {a b : UInt8} (hlow : 0xc0 ≤ a.toNat) (hhigh : a.toNat ≤ 0xdf) (hb : Continues b) :
    (unit2 a b).toNat = (a.toNat - 0xc0) * 64 + (b.toNat - 0x80) := by
  obtain ⟨hb, hb'⟩ := hb
  rw [unit2, UInt16.toNat_ofNat', payload]
  omega

theorem toNat_unit3 {a b c : UInt8} (hlow : 0xe0 ≤ a.toNat) (hhigh : a.toNat ≤ 0xef) (hb : Continues b)
    (hc : Continues c) :
    (unit3 a b c).toNat = (a.toNat - 0xe0) * 4096 + (b.toNat - 0x80) * 64 + (c.toNat - 0x80) := by
  obtain ⟨hb, hb'⟩ := hb
  obtain ⟨hc, hc'⟩ := hc
  rw [unit3, UInt16.toNat_ofNat', payload, payload]
  omega

theorem Group.units_append {first : Bytes} {u : UInt16} (h : Group first u) (rest : Bytes) :
    units (first ++ rest) = (u :: ·) <$> units rest := by
  cases h with
  | @one a _ hlow hhigh hu =>
    have hunit : a.toUInt16 = u := by rw [← UInt16.toNat_inj, UInt8.toNat_toUInt16, hu]
    simp [units.eq_def (a :: rest), hlow, hhigh, hunit]
  | @two a b _ hlow hhigh hb hu =>
    have hone : ¬a.toNat ≤ 0x7f := by omega
    have hunit : unit2 a b = u := by rw [← UInt16.toNat_inj, toNat_unit2 hlow hhigh hb, hu]
    simp [units.eq_def (a :: b :: rest), hone, hlow, hhigh, (isContinuation_iff b).2 hb, hunit]
  | @three a b c _ hlow hhigh hb hc hu =>
    have hone : ¬a.toNat ≤ 0x7f := by omega
    have htwo : ¬a.toNat ≤ 0xdf := by omega
    have hunit : unit3 a b c = u := by rw [← UInt16.toNat_inj, toNat_unit3 hlow hhigh hb hc, hu]
    simp [units.eq_def (a :: b :: c :: rest), hone, htwo, hlow, hhigh, (isContinuation_iff b).2 hb,
      (isContinuation_iff c).2 hc, hunit]

theorem Groups.units_eq {bytes : Bytes} {us : List UInt16} (h : Groups bytes us) : units bytes = some us := by
  induction h with
  | nil => rfl
  | cons hfirst _ ih =>
    rw [hfirst.units_append, ih]
    rfl

theorem groups_of_units {bytes : Bytes} {us : List UInt16} (h : units bytes = some us) : Groups bytes us := by
  fun_induction units bytes generalizing us with
  | case1 =>
    cases h
    exact .nil
  | case2 a rest hone ih =>
    obtain ⟨later, hrest, rfl⟩ := Option.map_eq_some_iff.1 h
    simp only [Bool.and_eq_true, decide_eq_true_eq] at hone
    exact Groups.cons (.one hone.1 hone.2 (UInt8.toNat_toUInt16 a)) (ih hrest)
  | case3 a hone htwo b rest hb ih =>
    obtain ⟨later, hrest, rfl⟩ := Option.map_eq_some_iff.1 h
    simp only [Bool.and_eq_true, decide_eq_true_eq] at htwo
    have hb := (isContinuation_iff b).1 hb
    exact Groups.cons (.two htwo.1 htwo.2 hb (toNat_unit2 htwo.1 htwo.2 hb)) (ih hrest)
  | case6 a hone htwo hthree b c rest hbc ih =>
    obtain ⟨later, hrest, rfl⟩ := Option.map_eq_some_iff.1 h
    simp only [Bool.and_eq_true, decide_eq_true_eq] at hthree hbc
    have hb := (isContinuation_iff b).1 hbc.1
    have hc := (isContinuation_iff c).1 hbc.2
    exact Groups.cons (.three hthree.1 hthree.2 hb hc (toNat_unit3 hthree.1 hthree.2 hb hc)) (ih hrest)
  | _ => cases h

theorem units_eq_some_iff {bytes : Bytes} {us : List UInt16} : units bytes = some us ↔ Groups bytes us :=
  ⟨groups_of_units, Groups.units_eq⟩

/-! ## Reading by position -/

/-- A computation that may fail and keeps the positions that it has read, in order. -/
abbrev Tracked := OptionT (StateM (List Nat))

/-- Reads a byte of the memory. -/
def fetch (memory : Nat → UInt8) (i : Nat) : Tracked UInt8 := do
  modify (· ++ [i])
  return memory i

/-- Reads a byte that continues a group, if the text goes on to `i`. -/
def fetchContinuation (memory : Nat → UInt8) (last i : Nat) : Tracked UInt8 := do
  guard (i < last)
  let b ← fetch memory i
  guard (isContinuation b)
  return b

/-- The units of the text in a memory from position `i` up to `last`, by the loop over groups. -/
def walk (memory : Nat → UInt8) (last i : Nat) : Tracked (List UInt16) :=
  if i < last then do
    let a ← fetch memory i
    if 0x01 ≤ a.toNat && a.toNat ≤ 0x7f then return a.toUInt16 :: (← walk memory last (i + 1))
    else if 0xc0 ≤ a.toNat && a.toNat ≤ 0xdf then
      let b ← fetchContinuation memory last (i + 1)
      return unit2 a b :: (← walk memory last (i + 2))
    else if 0xe0 ≤ a.toNat && a.toNat ≤ 0xef then
      let b ← fetchContinuation memory last (i + 1)
      let c ← fetchContinuation memory last (i + 2)
      return unit3 a b c :: (← walk memory last (i + 3))
    else failure
  else return []
termination_by last - i

/-- Started where the bytes before `i` have been read, a computation gives `result`, and then the
bytes before `k` have been read. -/
def Tracks {α : Type} (act : Tracked α) (i : Nat) (result : Option α) (k : Nat) : Prop :=
  act.run.run (List.range i) = (result, List.range k)

section
variable {α β : Type} {i j k : Nat}

theorem Tracks.bind {act : Tracked α} {next : α → Tracked β} {a : α} {result : Option β}
    (h : Tracks act i (some a) j) (hnext : Tracks (next a) j result k) : Tracks (act >>= next) i result k := by
  unfold Tracks at *
  simp only [OptionT.run_bind, Option.elimM, StateT.run_bind, h]
  exact hnext

theorem Tracks.bind_none {act : Tracked α} (next : α → Tracked β) (h : Tracks act i none k) :
    Tracks (act >>= next) i none k := by
  unfold Tracks at *
  simp only [OptionT.run_bind, Option.elimM, StateT.run_bind, h]
  rfl

theorem tracks_pure (a : α) : Tracks (pure a) i (some a) i := rfl

theorem tracks_failure : Tracks (failure : Tracked α) i none i := rfl

theorem tracks_guard {p : Prop} [Decidable p] (h : p) : Tracks (guard p) i (some ()) i := by
  rw [guard, if_pos h]
  exact tracks_pure ()

theorem tracks_guard_of_not {p : Prop} [Decidable p] (h : ¬p) : Tracks (guard p) i none i := by
  rw [guard, if_neg h]
  exact tracks_failure

variable {memory : Nat → UInt8} {last : Nat}

theorem tracks_fetch (memory : Nat → UInt8) (i : Nat) : Tracks (fetch memory i) i (some (memory i)) (i + 1) := by
  unfold Tracks
  rw [List.range_succ]
  rfl

theorem tracks_fetchContinuation (hi : i < last) (hb : isContinuation (memory i) = true) :
    Tracks (fetchContinuation memory last i) i (some (memory i)) (i + 1) :=
  (tracks_guard hi).bind ((tracks_fetch memory i).bind ((tracks_guard hb).bind (tracks_pure _)))

/-- A byte that is missing or continues no group is not read past. -/
theorem tracks_fetchContinuation_none (hi : i ≤ last) (h : ¬(i < last ∧ isContinuation (memory i) = true)) :
    ∃ k ≤ last, Tracks (fetchContinuation memory last i) i none k := by
  by_cases hlt : i < last
  · have hb : ¬isContinuation (memory i) = true := fun hb => h ⟨hlt, hb⟩
    exact ⟨i + 1, hlt, (tracks_guard hlt).bind ((tracks_fetch memory i).bind ((tracks_guard_of_not hb).bind_none _))⟩
  · exact ⟨i, hi, (tracks_guard_of_not hlt).bind_none _⟩

theorem Tracks.cons {act : Tracked (List UInt16)} {result : Option (List UInt16)} (u : UInt16)
    (h : Tracks act i result k) : Tracks (do return u :: (← act)) i ((u :: ·) <$> result) k := by
  cases result with
  | none => exact h.bind_none _
  | some us => exact h.bind (tracks_pure (u :: us))

end

/-- So many bytes of a memory from a position on. -/
def stretch (memory : Nat → UInt8) (i : Nat) : (count : Nat) → Bytes
  | 0 => []
  | count + 1 => memory i :: stretch memory (i + 1) count

/-- From a round at `i` on, with `count` bytes left, the loop finds what the reader finds in them. It
reads them in order, all of them if they are groups, and none behind them. -/
def Walks (memory : Nat → UInt8) (last i count : Nat) : Prop :=
  ∃ k ≤ last, Tracks (walk memory last i) i (units (stretch memory i count)) k ∧
    (k = last ∨ units (stretch memory i count) = none)

section
variable {memory : Nat → UInt8} {last i count : Nat}

theorem walks_end : Walks memory last last 0 := by
  refine ⟨last, le_rfl, ?_, .inl rfl⟩
  rw [walk, if_neg (Nat.lt_irrefl last)]
  exact tracks_pure []

theorem walks_one (hlast : i + (count + 1) = last)
    (hone : (0x01 ≤ (memory i).toNat && (memory i).toNat ≤ 0x7f) = true)
    (hrest : Walks memory last (i + 1) count) : Walks memory last i (count + 1) := by
  obtain ⟨k, hk, hwalk, hdone⟩ := hrest
  have hunits : units (stretch memory i (count + 1)) =
      ((memory i).toUInt16 :: ·) <$> units (stretch memory (i + 1) count) := by
    simp only [stretch, units.eq_def (memory i :: _), if_pos hone]
  rw [Walks, walk, if_pos (by omega), hunits]
  refine ⟨k, hk, (tracks_fetch memory i).bind ?_, hdone.imp_right fun h => by rw [h]; rfl⟩
  rw [if_pos hone]
  exact hwalk.cons _

theorem walks_two (hlast : i + (count + 1) = last)
    (hone : ¬(0x01 ≤ (memory i).toNat && (memory i).toNat ≤ 0x7f) = true)
    (htwo : (0xc0 ≤ (memory i).toNat && (memory i).toNat ≤ 0xdf) = true)
    (hrest : 0 < count → Walks memory last (i + 2) (count - 1)) : Walks memory last i (count + 1) := by
  have hunits : units (stretch memory i (count + 1)) =
      if 0 < count ∧ isContinuation (memory (i + 1)) = true then
        (unit2 (memory i) (memory (i + 1)) :: ·) <$> units (stretch memory (i + 2) (count - 1))
      else none := by
    simp only [stretch, units.eq_def (memory i :: _), if_neg hone, if_pos htwo]
    cases count with
    | zero => rfl
    | succ count => simp only [stretch, Nat.zero_lt_succ, true_and, Nat.add_sub_cancel]
  rw [Walks, walk, if_pos (by omega), hunits]
  by_cases hb : i + 1 < last ∧ isContinuation (memory (i + 1)) = true
  · obtain ⟨k, hk, hwalk, hdone⟩ := hrest (by omega)
    rw [if_pos ⟨by omega, hb.2⟩]
    refine ⟨k, hk, (tracks_fetch memory i).bind ?_, hdone.imp_right fun h => by rw [h]; rfl⟩
    simp only [if_neg hone, if_pos htwo]
    exact (tracks_fetchContinuation hb.1 hb.2).bind (hwalk.cons _)
  · obtain ⟨k, hk, hmissing⟩ := tracks_fetchContinuation_none (by omega) hb
    rw [if_neg fun h => hb ⟨by omega, h.2⟩]
    refine ⟨k, hk, (tracks_fetch memory i).bind ?_, .inr rfl⟩
    simp only [if_neg hone, if_pos htwo]
    exact hmissing.bind_none _

theorem walks_three (hlast : i + (count + 1) = last)
    (hone : ¬(0x01 ≤ (memory i).toNat && (memory i).toNat ≤ 0x7f) = true)
    (htwo : ¬(0xc0 ≤ (memory i).toNat && (memory i).toNat ≤ 0xdf) = true)
    (hthree : (0xe0 ≤ (memory i).toNat && (memory i).toNat ≤ 0xef) = true)
    (hrest : 1 < count → Walks memory last (i + 3) (count - 2)) : Walks memory last i (count + 1) := by
  have hunits : units (stretch memory i (count + 1)) =
      if 1 < count ∧ isContinuation (memory (i + 1)) = true ∧ isContinuation (memory (i + 2)) = true then
        (unit3 (memory i) (memory (i + 1)) (memory (i + 2)) :: ·) <$> units (stretch memory (i + 3) (count - 2))
      else none := by
    simp only [stretch, units.eq_def (memory i :: _), if_neg hone, if_neg htwo, if_pos hthree]
    match count with
    | 0 | 1 => rfl
    | count + 2 => simp [stretch]
  rw [Walks, walk, if_pos (by omega), hunits]
  by_cases hb : i + 1 < last ∧ isContinuation (memory (i + 1)) = true
  · by_cases hc : i + 2 < last ∧ isContinuation (memory (i + 2)) = true
    · obtain ⟨k, hk, hwalk, hdone⟩ := hrest (by omega)
      rw [if_pos ⟨by omega, hb.2, hc.2⟩]
      refine ⟨k, hk, (tracks_fetch memory i).bind ?_, hdone.imp_right fun h => by rw [h]; rfl⟩
      simp only [if_neg hone, if_neg htwo, if_pos hthree]
      exact (tracks_fetchContinuation hb.1 hb.2).bind ((tracks_fetchContinuation hc.1 hc.2).bind (hwalk.cons _))
    · obtain ⟨k, hk, hmissing⟩ := tracks_fetchContinuation_none (by omega) hc
      rw [if_neg fun h => hc ⟨by omega, h.2.2⟩]
      refine ⟨k, hk, (tracks_fetch memory i).bind ?_, .inr rfl⟩
      simp only [if_neg hone, if_neg htwo, if_pos hthree]
      exact (tracks_fetchContinuation hb.1 hb.2).bind (hmissing.bind_none _)
  · obtain ⟨k, hk, hmissing⟩ := tracks_fetchContinuation_none (by omega) hb
    rw [if_neg fun h => hb ⟨by omega, h.2.1⟩]
    refine ⟨k, hk, (tracks_fetch memory i).bind ?_, .inr rfl⟩
    simp only [if_neg hone, if_neg htwo, if_pos hthree]
    exact hmissing.bind_none _

theorem walks_stuck (hlast : i + (count + 1) = last)
    (hone : ¬(0x01 ≤ (memory i).toNat && (memory i).toNat ≤ 0x7f) = true)
    (htwo : ¬(0xc0 ≤ (memory i).toNat && (memory i).toNat ≤ 0xdf) = true)
    (hthree : ¬(0xe0 ≤ (memory i).toNat && (memory i).toNat ≤ 0xef) = true) :
    Walks memory last i (count + 1) := by
  have hunits : units (stretch memory i (count + 1)) = none := by
    simp only [stretch, units.eq_def (memory i :: _), if_neg hone, if_neg htwo, if_neg hthree]
  rw [Walks, walk, if_pos (by omega), hunits]
  refine ⟨i + 1, by omega, (tracks_fetch memory i).bind ?_, .inr rfl⟩
  simp only [if_neg hone, if_neg htwo, if_neg hthree]
  exact tracks_failure

theorem walks (hlast : i + count = last) : Walks memory last i count := by
  induction count using Nat.strong_induction_on generalizing i with
  | _ count ih =>
    cases count with
    | zero =>
      obtain rfl : i = last := hlast
      exact walks_end
    | succ count =>
      by_cases hone : (0x01 ≤ (memory i).toNat && (memory i).toNat ≤ 0x7f) = true
      · exact walks_one hlast hone (ih count (by omega) (by omega))
      by_cases htwo : (0xc0 ≤ (memory i).toNat && (memory i).toNat ≤ 0xdf) = true
      · exact walks_two hlast hone htwo fun h => ih (count - 1) (by omega) (by omega)
      by_cases hthree : (0xe0 ≤ (memory i).toNat && (memory i).toNat ≤ 0xef) = true
      · exact walks_three hlast hone htwo hthree fun h => ih (count - 2) (by omega) (by omega)
      · exact walks_stuck hlast hone htwo hthree

end

/-! ## Text with more bytes behind it -/

theorem stretch_getD (bytes : Bytes) {i count : Nat} (h : i + count ≤ bytes.length) :
    stretch (fun j => bytes.getD j 0) i count = (bytes.drop i).take count := by
  induction count generalizing i with
  | zero => simp [stretch]
  | succ count ih =>
    have hi : i < bytes.length := by omega
    rw [stretch, ih (by omega), List.drop_eq_getElem_cons hi, List.take_succ_cons]
    simp [List.getD_eq_getElem?_getD, hi]

/-- The loop over a text in a memory reads its bytes in order, all of them if they are groups, and
none of those behind it. -/
theorem walk_eq (bytes behind : Bytes) :
    ∃ k ≤ bytes.length,
      (walk (fun i => (bytes ++ behind).getD i 0) bytes.length 0).run.run [] = (units bytes, List.range k) ∧
        (k = bytes.length ∨ units bytes = none) := by
  have htext : stretch (fun i => (bytes ++ behind).getD i 0) 0 bytes.length = bytes := by
    rw [stretch_getD _ (by simp)]
    simp
  have hwalks : Walks (fun i => (bytes ++ behind).getD i 0) bytes.length 0 bytes.length := walks (Nat.zero_add _)
  rw [Walks, htext] at hwalks
  exact hwalks

end Jvm.Text.ModifiedUtf8
