import Jvm.Proofs.ClassFile.Delimited

/-!
# The slots of a constant pool

A pool is read constant by constant, with a counter for the slot that comes next and the entries so far;
`Reading` says which states come up. The counter has 16 bits, and runs over just where a count of 65535 ends
in a wide constant (`RunsOver`); it starts again at zero then. Anywhere else it is the number of entries, and
each constant is read for the slot that those before it leave. So this is the slot that an error names, and the
one where the constant is found. Main theorem `slots_numbered`.
-/

namespace Jvm

open Bytes Reader

namespace Constant

/-- Where the reading of a pool stands. -/
structure PoolState where
  /-- The constants that were read, in their order. -/
  found : List Constant := []
  /-- The slot of the next constant. -/
  next : UInt16 := 1
  /-- The entries of the pool so far. -/
  entries : List Constant := [.unusable]
  rest : Bytes

/-- One more constant. -/
def PoolState.add (s : PoolState) (c : Constant) (rest : Bytes) : PoolState where
  found := s.found ++ [c]
  next := s.next + .ofNat c.slots
  entries := s.entries ++ c.fill
  rest := rest

/-- The states that come up while a pool with this count is read off the input. -/
inductive Reading (count : UInt16) (input : Bytes) : PoolState → Prop
  | start : Reading count input { rest := input }
  | next {s : PoolState} {c : Constant} {rest : Bytes} : Reading count input s → s.next < count →
      read s.next s.rest = .ok (c, rest) → Reading count input (s.add c rest)

/-- The last slot there can be is that of a wide constant, which would need another one. -/
def RunsOver (count : UInt16) (input : Bytes) : Prop :=
  count = 65535 ∧ ∃ s c rest, Reading count input s ∧ s.next = 65534 ∧ read s.next s.rest = .ok (c, rest) ∧ c.isWide

/-- The tags of the constants that there are. -/
def tags : List Nat := [1, 3, 4, 5, 6, 7, 8, 9, 10, 11, 12, 15, 16, 17, 18, 19, 20]

/-! ## One constant -/

theorem u8_cons (byte : UInt8) (tail : Bytes) : u8 (byte :: tail) = .ok (byte, tail) := rfl

theorem u16_cons (hi lo : UInt8) (tail : Bytes) : u16 (hi :: lo :: tail) = .ok (word16 hi lo, tail) := rfl

/-- The reader only fails if its input is too short. -/
def OnlyTruncates {α : Type} (r : Reader α) : Prop := ∀ input e, r input = .error e → e = .truncated

namespace OnlyTruncates
variable {α β : Type} {r : Reader α}

theorem pure (a : α) : OnlyTruncates (Pure.pure a) := by
  intro input e h
  cases h

theorem bind {k : α → Reader β} (h : OnlyTruncates r) (hk : ∀ a, OnlyTruncates (k a)) : OnlyTruncates (r >>= k) := by
  intro input e he
  cases hr : r input with
  | error e' =>
    rw [Delimits.bind_error hr] at he
    cases he
    exact h input _ hr
  | ok first =>
    obtain ⟨a, rest⟩ := first
    rw [Delimits.bind_ok hr] at he
    exact hk a rest e he

theorem map (f : α → β) (h : OnlyTruncates r) : OnlyTruncates (r >>= fun a => Pure.pure (f a)) :=
  h.bind fun a => .pure (f a)

theorem u8 : OnlyTruncates Reader.u8 := by
  intro input e h
  cases input <;> cases h
  rfl

theorem u16 : OnlyTruncates Reader.u16 := u8.bind fun _ => u8.map _

theorem u32 : OnlyTruncates Reader.u32 := u16.bind fun _ => u16.map _

theorem u64 : OnlyTruncates Reader.u64 := u32.bind fun _ => u32.map _

end OnlyTruncates

/-- What is wrong with a constant for slot `index` whose bytes are all there. -/
inductive Malformed (index : UInt16) : Bytes → ParseError → Prop
  | tag {tag : UInt8} (tail : Bytes) : tag.toNat ∉ tags → Malformed index (tag :: tail) (.unknownTag tag index)
  | text {hi lo : UInt8} {text : Bytes} (tail : Bytes) : text.length = (word16 hi lo).toNat →
      Text.ModifiedUtf8.decode text = none → Malformed index (1 :: hi :: lo :: (text ++ tail)) (.invalidUtf8 index)

/-- What the reader may find wrong behind the tag. -/
def FindsMalformed (index : UInt16) (tag : UInt8) (r : Reader Constant) : Prop :=
  ∀ tail e, r tail = .error e → e = .truncated ∨ Malformed index (tag :: tail) e

section
variable {index : UInt16} {input rest : Bytes} {c : Constant} {e : ParseError}

theorem OnlyTruncates.findsMalformed {r : Reader Constant} (h : OnlyTruncates r) (index : UInt16) (tag : UInt8) :
    FindsMalformed index tag r := fun tail e he => .inl (h tail e he)

/-- The content of a text constant. -/
def readText (index : UInt16) : Reader Constant := do
  let bytes ← take (← u16).toNat
  match Text.ModifiedUtf8.decode bytes with
  | some text => return .utf8 text
  | none => throw (.invalidUtf8 index)

theorem readText_of_take {hi lo : UInt8} {text tail : Bytes} (h : text.length = (word16 hi lo).toNat) :
    readText index (hi :: lo :: (text ++ tail)) = (match Text.ModifiedUtf8.decode text with
      | some text => (pure (utf8 text) : Reader Constant)
      | none => throw (ParseError.invalidUtf8 index)) tail := by
  have htake : take (word16 hi lo).toNat (text ++ tail) = .ok (text, tail) := by
    rw [← h]
    exact reads_take text tail
  rw [readText, Delimits.bind_ok (u16_cons hi lo _), Delimits.bind_ok htake]

theorem findsMalformed_readText (index : UInt16) : FindsMalformed index 1 (readText index) := by
  intro tail e he
  match tail with
  | [] | [_] =>
    cases he
    exact .inl rfl
  | hi :: lo :: rest =>
    by_cases hlength : (word16 hi lo).toNat ≤ rest.length
    · have hsplit := List.take_append_drop (word16 hi lo).toNat rest
      have htext : (rest.take (word16 hi lo).toNat).length = (word16 hi lo).toNat := List.length_take_of_le hlength
      rw [← hsplit, readText_of_take htext] at he
      rw [← hsplit]
      cases hdecode : Text.ModifiedUtf8.decode (rest.take (word16 hi lo).toNat) with
      | some text =>
        rw [hdecode] at he
        cases he
      | none =>
        rw [hdecode] at he
        cases he
        exact .inr (.text _ htext hdecode)
    · have htake : take (word16 hi lo).toNat rest = .error .truncated := by
        rw [Reader.take, if_neg (mt hasAtLeast_iff.1 hlength)]
      rw [readText, Delimits.bind_ok (u16_cons hi lo rest), Delimits.bind_error htake] at he
      cases he
      exact .inl rfl

theorem malformed_of_read (h : read index input = .error e) : e = .truncated ∨ Malformed index input e := by
  cases input with
  | nil =>
    cases h
    exact .inl rfl
  | cons tag tail =>
    rw [read, Delimits.bind_ok (u8_cons tag tail)] at h
    refine (?_ : FindsMalformed index tag _) tail e h
    split
    case h_1 heq =>
      obtain rfl : tag = 1 := UInt8.toNat_inj.1 heq
      exact findsMalformed_readText index
    case h_2 | h_3 => exact (OnlyTruncates.u32.map _).findsMalformed index tag
    case h_4 | h_5 => exact (OnlyTruncates.u64.map _).findsMalformed index tag
    case h_6 | h_7 | h_13 | h_16 | h_17 => exact (OnlyTruncates.u16.map _).findsMalformed index tag
    case h_8 | h_9 | h_10 | h_11 | h_14 | h_15 =>
      exact (OnlyTruncates.u16.bind fun _ => OnlyTruncates.u16.map _).findsMalformed index tag
    case h_12 => exact (OnlyTruncates.u8.bind fun _ => OnlyTruncates.u16.map _).findsMalformed index tag
    case h_18 =>
      intro tail e he
      cases he
      refine .inr (.tag tail fun hmem => ?_)
      simp_all [tags]

theorem read_of_unknown {tag : UInt8} {tail : Bytes} (h : tag.toNat ∉ tags) :
    read index (tag :: tail) = .error (.unknownTag tag index) := by
  rw [read, Delimits.bind_ok (u8_cons tag tail)]
  refine congrFun (g := (throw (ParseError.unknownTag tag index) : Reader Constant)) ?_ tail
  split
  case h_18 => rfl
  all_goals
    rename_i heq
    exact absurd (by rw [heq]; decide) h

/-- The faults of a constant, apart from a missing end. -/
theorem malformed_iff : Malformed index input e ↔ read index input = .error e ∧ e ≠ .truncated := by
  constructor
  · intro h
    cases h with
    | tag tail htag => exact ⟨read_of_unknown htag, nofun⟩
    | text tail hlength hdecode =>
      rw [read, Delimits.bind_ok (u8_cons 1 _)]
      exact ⟨(readText_of_take hlength).trans (by rw [hdecode]; rfl), nofun⟩
  · rintro ⟨h, hne⟩
    exact (malformed_of_read h).resolve_left hne

end

/-! ## One step of the reading -/

theorem bind_pure_eq {α β : Type} (r : Reader α) (f : α → β) (input : Bytes) :
    (r >>= fun a => pure (f a)) input = (r input).map fun p => (f p.1, p.2) := by
  show (r input >>= fun p => (pure (f p.1) : Reader β) p.2) = _
  cases r input <;> rfl

section
variable {count index : UInt16} {input rest : Bytes} {c : Constant}

theorem readSlots_of_read (hlt : index < count) (h : read index input = .ok (c, rest)) :
    readSlots count index input =
      (readSlots count (index + .ofNat c.slots) rest).map fun p => (c.fill ++ p.1, p.2) := by
  rw [readSlots_of_lt hlt, Delimits.bind_ok h]
  exact bind_pure_eq ..

theorem readSlots_of_error (hlt : index < count) {e : ParseError} (h : read index input = .error e) :
    readSlots count index input = .error e := by
  rw [readSlots_of_lt hlt, Delimits.bind_error h]

end

theorem slotOf_concat (constants : List Constant) (c : Constant) :
    slotOf (constants ++ [c]) (constants ++ [c]).length = slotOf constants constants.length + c.slots := by
  rw [slotOf_length, slotOf_length, List.map_append, List.sum_append, List.map_singleton, List.sum_singleton]
  omega

theorem slotOf_eq {constants : List Constant} {k : Nat} (hk : k ≤ constants.length) :
    slotOf constants k = 1 + k + (constants.take k).countP isWide := by
  have hsum (l : List Constant) : (l.map slots).sum = l.length + l.countP isWide := by
    induction l with
    | nil => rfl
    | cons c l ih =>
      rw [List.map_cons, List.sum_cons, ih, List.length_cons, List.countP_cons, slots]
      split <;> omega
  rw [slotOf, hsum, List.length_take_of_le hk, Nat.add_assoc]

/-! ## The reading of a pool -/

namespace Reading
variable {count : UInt16} {input : Bytes} {s : PoolState}

/-- The counter may be anything here. -/
theorem entries_eq (h : Reading count input s) : s.entries = .unusable :: s.found.flatMap fill := by
  induction h with
  | start => rfl
  | @next s c rest _ _ _ ih =>
    show s.entries ++ c.fill = .unusable :: (s.found ++ [c]).flatMap fill
    rw [ih, List.flatMap_append, List.flatMap_singleton, List.cons_append]

theorem getElem?_entries (h : Reading count input s) {k : Nat} {c : Constant} (hk : s.found[k]? = some c) :
    s.entries[1 + k + (s.found.take k).countP isWide]? = some c := by
  have hslot := pool_slotOf hk
  have hlt := (List.getElem?_eq_some_iff.1 hk).1
  rwa [pool, List.getElem?_toArray, ← entries_eq h, slotOf_eq hlt.le] at hslot

theorem le_succ_count (h : Reading count input s) : s.next.toNat ≤ count.toNat + 1 := by
  induction h with
  | start => exact Nat.le_add_left 1 _
  | @next s c rest _ hlt _ ih =>
    rw [UInt16.lt_iff_toNat_lt] at hlt
    have hslots := c.slots_le
    rw [PoolState.add, UInt16.toNat_add, toNat_slots]
    omega

/-- What is left to do makes the pool whole. The counter may be anything here. -/
theorem readPool_eq (h : Reading count input s) : readPool (ofWord16 count ++ input) =
    (readSlots count s.next s.rest).map fun p => ((s.entries ++ p.1).toArray, p.2) := by
  induction h with
  | start =>
    rw [readPool, Delimits.bind_ok (reads_u16 count input)]
    exact bind_pure_eq ..
  | @next s c rest h hlt hread ih =>
    rw [ih, readSlots_of_read hlt hread]
    show ((readSlots count (s.next + .ofNat c.slots) rest).map _).map _ =
      (readSlots count (s.next + .ofNat c.slots) rest).map _
    cases readSlots count (s.next + .ofNat c.slots) rest with
    | error e => rfl
    | ok p =>
      show Except.ok ((s.entries ++ (c.fill ++ p.1)).toArray, p.2) = .ok ((s.entries ++ c.fill ++ p.1).toArray, p.2)
      rw [List.append_assoc]

/-- The counter has reached the count. -/
theorem readPool_of_le (h : Reading count input s) (hle : count ≤ s.next) :
    readPool (ofWord16 count ++ input) = .ok (s.entries.toArray, s.rest) := by
  rw [readPool_eq h, readSlots_of_le hle]
  show Except.ok ((s.entries ++ []).toArray, s.rest) = _
  rw [List.append_nil]

theorem readPool_of_error (h : Reading count input s) (hlt : s.next < count) {e : ParseError}
    (he : read s.next s.rest = .error e) : readPool (ofWord16 count ++ input) = .error e := by
  rw [readPool_eq h, readSlots_of_error hlt he]
  rfl

/-- Each constant takes bytes of the input, so there is an end to it. -/
theorem exists_end {s : PoolState} (h : Reading count input s) :
    ∃ s, Reading count input s ∧ (s.next < count → ∃ e, read s.next s.rest = .error e) := by
  by_cases hlt : s.next < count
  · cases hread : read s.next s.rest with
    | error e => exact ⟨s, h, fun _ => ⟨e, hread⟩⟩
    | ok first =>
      obtain ⟨c, rest⟩ := first
      have hshorter : (s.add c rest).rest.length < s.rest.length := length_lt_of_read hread
      exact exists_end (h.next hlt hread)
  · exact ⟨s, h, fun hlt' => absurd hlt' hlt⟩
termination_by s.rest.length

theorem readPool_eq_ok_iff {entries : Array Constant} {rest : Bytes} :
    readPool (ofWord16 count ++ input) = .ok (entries, rest) ↔
      ∃ s, Reading count input s ∧ count ≤ s.next ∧ entries = s.entries.toArray ∧ rest = s.rest := by
  constructor
  · intro hpool
    obtain ⟨s, h, hend⟩ := exists_end .start
    by_cases hlt : s.next < count
    · obtain ⟨e, he⟩ := hend hlt
      rw [readPool_of_error h hlt he] at hpool
      cases hpool
    · have hle := UInt16.not_lt.1 hlt
      rw [readPool_of_le h hle] at hpool
      cases hpool
      exact ⟨s, h, hle, rfl, rfl⟩
  · rintro ⟨s, h, hle, rfl, rfl⟩
    exact readPool_of_le h hle

theorem readPool_eq_error_iff {e : ParseError} : readPool (ofWord16 count ++ input) = .error e ↔
    ∃ s, Reading count input s ∧ s.next < count ∧ read s.next s.rest = .error e := by
  constructor
  · intro hpool
    obtain ⟨s, h, hend⟩ := exists_end .start
    by_cases hlt : s.next < count
    · obtain ⟨e', he⟩ := hend hlt
      rw [readPool_of_error h hlt he] at hpool
      cases hpool
      exact ⟨s, h, hlt, he⟩
    · rw [readPool_of_le h (UInt16.not_lt.1 hlt)] at hpool
      cases hpool
  · rintro ⟨s, h, hlt, he⟩
    exact readPool_of_error h hlt he

/-- A pool of which no byte is missing fails at the first constant that is malformed. -/
theorem readPool_eq_malformed_iff {e : ParseError} (hne : e ≠ .truncated) :
    readPool (ofWord16 count ++ input) = .error e ↔
      ∃ s, Reading count input s ∧ s.next < count ∧ Malformed s.next s.rest e := by
  rw [readPool_eq_error_iff]
  refine exists_congr fun s => and_congr_right fun _ => and_congr_right fun _ => ?_
  exact ⟨fun he => malformed_iff.2 ⟨he, hne⟩, fun hmalformed => (malformed_iff.1 hmalformed).1⟩

section
variable (hover : ¬RunsOver count input)
include hover

theorem toNat_next_add {c : Constant} {rest : Bytes} (h : Reading count input s) (hlt : s.next < count)
    (hread : read s.next s.rest = .ok (c, rest)) : (s.add c rest).next.toNat = s.next.toNat + c.slots := by
  have hfit : s.next.toNat + c.slots < 65536 := by
    have hcount := count.toNat_lt
    rw [UInt16.lt_iff_toNat_lt] at hlt
    by_contra hge
    -- two slots from the last but one, below the greatest count
    have hslots : c.slots = 2 ∧ s.next.toNat = 65534 ∧ count.toNat = 65535 := by
      have hslots := c.slots_le
      omega
    refine hover ⟨UInt16.toNat_inj.1 hslots.2.2, s, c, rest, h, UInt16.toNat_inj.1 hslots.2.1, hread, ?_⟩
    by_contra hnarrow
    rw [slots, if_neg hnarrow] at hslots
    omega
  rw [PoolState.add, UInt16.toNat_add, toNat_slots, Nat.mod_eq_of_lt hfit]

theorem toNat_next (h : Reading count input s) : s.next.toNat = slotOf s.found s.found.length := by
  induction h with
  | start => rfl
  | @next s c rest h hlt hread ih => rw [toNat_next_add hover h hlt hread, ih, PoolState.add, slotOf_concat]

theorem length_entries (h : Reading count input s) : s.entries.length = s.next.toNat := by
  rw [toNat_next hover h, ← size_pool, pool, List.size_toArray, entries_eq h]

theorem slot (h : Reading count input s) : s.next.toNat = 1 + s.found.length + s.found.countP isWide := by
  rw [toNat_next hover h, slotOf_eq (le_refl _), List.take_length]

/-- The size of the pool tells whether its last slot is that of a wide constant. -/
theorem length_entries_of_le (h : Reading count input s) (hle : count ≤ s.next) :
    s.entries.length = if s.entries[count.toNat - 1]?.any isWide then count.toNat + 1 else max count.toNat 1 := by
  rw [UInt16.le_iff_toNat_le] at hle
  cases h with
  | start =>
    have hone : count.toNat ≤ 1 := hle
    obtain hcount | hcount : count.toNat = 0 ∨ count.toNat = 1 := by omega
    all_goals
      rw [hcount]
      rfl
  | @next s c rest h hlt hread =>
    rw [toNat_next_add hover h hlt hread] at hle
    rw [UInt16.lt_iff_toNat_lt] at hlt
    have hlength := length_entries hover h
    show (s.entries ++ c.fill).length =
      if (s.entries ++ c.fill)[count.toNat - 1]?.any isWide then count.toNat + 1 else max count.toNat 1
    rw [List.getElem?_append_right (by omega), List.length_append, hlength, length_fill]
    by_cases hwide : c.isWide
    · -- the count may end within the constant or behind it
      rw [slots, if_pos hwide] at hle
      rw [slots, fill, if_pos hwide, if_pos hwide]
      obtain hlast | hpast : count.toNat - 1 - s.next.toNat = 0 ∨ count.toNat - 1 - s.next.toNat = 1 := by omega
      · rw [hlast]
        show s.next.toNat + 2 = if c.isWide then count.toNat + 1 else max count.toNat 1
        rw [if_pos hwide]
        omega
      · rw [hpast]
        show s.next.toNat + 2 = max count.toNat 1
        omega
    · rw [slots, if_neg hwide] at hle
      rw [slots, fill, if_neg hwide, if_neg hwide, show count.toNat - 1 - s.next.toNat = 0 by omega]
      show s.next.toNat + 1 = if c.isWide then count.toNat + 1 else max count.toNat 1
      rw [if_neg hwide]
      omega

end

end Reading

/-! ## The numbering -/

/-- What the slots have to do with the constants when this count is read, and then the input. -/
structure Numbered (count : UInt16) (input : Bytes) : Prop where
  /-- A constant is read for the slot that those before it leave. -/
  slot {s : PoolState} : Reading count input s → s.next.toNat = 1 + s.found.length + s.found.countP isWide
  length {s : PoolState} : Reading count input s → s.entries.length = s.next.toNat
  entries {s : PoolState} : Reading count input s → s.entries = .unusable :: s.found.flatMap fill
  /-- Each constant is where it was numbered. -/
  holds {s : PoolState} {k : Nat} {c : Constant} : Reading count input s → s.found[k]? = some c →
    s.entries[1 + k + (s.found.take k).countP isWide]? = some c
  /-- A counter that has reached the count is at it or one past it. -/
  stops {s : PoolState} : Reading count input s →
    (count ≤ s.next ↔ s.next.toNat = count.toNat ∨ s.next.toNat = count.toNat + 1)
  /-- What is read from here on goes behind the entries so far. -/
  continues {s : PoolState} : Reading count input s → readPool (ofWord16 count ++ input) =
    (readSlots count s.next s.rest).map fun p => ((s.entries ++ p.1).toArray, p.2)
  ok {pool : Array Constant} {rest : Bytes} : readPool (ofWord16 count ++ input) = .ok (pool, rest) ↔
    ∃ s, Reading count input s ∧ count ≤ s.next ∧ pool = s.entries.toArray ∧ rest = s.rest
  error {e : ParseError} : readPool (ofWord16 count ++ input) = .error e ↔
    ∃ s, Reading count input s ∧ s.next < count ∧ read s.next s.rest = .error e
  unknownTag {tag : UInt8} {index : UInt16} :
    readPool (ofWord16 count ++ input) = .error (.unknownTag tag index) ↔
      ∃ s tail, Reading count input s ∧ s.next < count ∧ index = s.next ∧ s.rest = tag :: tail ∧ tag.toNat ∉ tags
  invalidUtf8 {index : UInt16} : readPool (ofWord16 count ++ input) = .error (.invalidUtf8 index) ↔
    ∃ s hi lo text tail, Reading count input s ∧ s.next < count ∧ index = s.next ∧
      s.rest = 1 :: hi :: lo :: (text ++ tail) ∧ text.length = (word16 hi lo).toNat ∧
      Text.ModifiedUtf8.decode text = none
  /-- Slots as many as counted, and one more where a wide constant needs it. -/
  size {pool : Array Constant} {rest : Bytes} : readPool (ofWord16 count ++ input) = .ok (pool, rest) →
    pool.size = if pool[count.toNat - 1]?.any isWide then count.toNat + 1 else max count.toNat 1

/-- **The slots of a constant pool.** The counter of the slots, the entries so far and the numbers of the
constants stay together, for a reading that succeeds and for one that fails. -/
theorem slots_numbered {count : UInt16} {input : Bytes} (hover : ¬RunsOver count input) : Numbered count input where
  slot h := h.slot hover
  length h := h.length_entries hover
  entries h := h.entries_eq
  holds h hk := h.getElem?_entries hk
  stops h := by
    have hle := h.le_succ_count
    rw [UInt16.le_iff_toNat_le]
    omega
  continues h := h.readPool_eq
  ok := Reading.readPool_eq_ok_iff
  error := Reading.readPool_eq_error_iff
  unknownTag {tag index} := by
    refine (Reading.readPool_eq_malformed_iff (by nofun)).trans ?_
    constructor
    · rintro ⟨s, h, hlt, hmalformed⟩
      generalize hrest : s.rest = bytes at hmalformed
      cases hmalformed with
      | tag tail htag => exact ⟨s, tail, h, hlt, rfl, hrest, htag⟩
    · rintro ⟨s, tail, h, hlt, rfl, hrest, htag⟩
      exact ⟨s, h, hlt, hrest ▸ .tag tail htag⟩
  invalidUtf8 {index} := by
    refine (Reading.readPool_eq_malformed_iff (by nofun)).trans ?_
    constructor
    · rintro ⟨s, h, hlt, hmalformed⟩
      generalize hrest : s.rest = bytes at hmalformed
      cases hmalformed with
      | text tail hlength hdecode => exact ⟨s, _, _, _, tail, h, hlt, rfl, hrest, hlength, hdecode⟩
    · rintro ⟨s, hi, lo, text, tail, h, hlt, rfl, hrest, hlength, hdecode⟩
      exact ⟨s, h, hlt, hrest ▸ .text tail hlength hdecode⟩
  size {pool rest} hpool := by
    obtain ⟨s, h, hle, rfl, rfl⟩ := (Reading.readPool_eq_ok_iff).1 hpool
    rw [List.size_toArray, List.getElem?_toArray]
    exact h.length_entries_of_le hover hle

/-- An empty text, a wide constant, and a tag that there is not. -/
def Sample.behindWide : Bytes := [1, 0, 0, 5, 0, 0, 0, 0, 0, 0, 0, 7, 2]

/-- The wide constant takes slots 2 and 3. -/
theorem slots_numbered_wide : ¬RunsOver 5 Sample.behindWide ∧
    readPool (ofWord16 5 ++ Sample.behindWide) = .error (.unknownTag 2 4) := by
  have hover : ¬RunsOver 5 Sample.behindWide := fun h => absurd h.1 (by decide)
  have htext : Reading 5 Sample.behindWide
      ⟨[.utf8 ""], 2, [.unusable, .utf8 ""], [5, 0, 0, 0, 0, 0, 0, 0, 7, 2]⟩ := .next .start (by decide) rfl
  have hwide : Reading 5 Sample.behindWide
      ⟨[.utf8 "", .long 7], 4, [.unusable, .utf8 "", .long 7, .unusable], [2]⟩ := htext.next (by decide) rfl
  exact ⟨hover, (slots_numbered hover).unknownTag.2 ⟨_, [], hwide, by decide, rfl, rfl, by decide⟩⟩

end Constant

end Jvm
