import Jvm.Proofs.ClassFile.RoundTrip

/-!
# Readers that say where they end

A reader `Delimits` what it reads if it looks no further than it takes, finds that any shorter input is
truncated, and finds the same fault in an input that goes on. Readers follow the `do` blocks here too: one
rule for each elementary reader, and `bind` puts them together.

The parser allows as many levels of nested attributes as there are bytes, so it is another reader for each
length. `AttributeTable.read_congr` says that this makes no difference: with a level for each byte that is
left, further levels are not reached. Main theorems `exists_used`, for what is parsed, and `parse_append`, for a
fault.
-/

namespace Jvm

open Bytes Reader

/-- Any input that ends within `bytes` is too short for the reader. -/
def Truncates {α : Type} (r : Reader α) (bytes : Bytes) : Prop :=
  ∀ short missing, bytes = short ++ missing → missing ≠ [] → r short = .error .truncated

/-- On this input the reader decides by what it takes. -/
structure DelimitsAt {α : Type} (r : Reader α) (input : Bytes) : Prop where
  ends : ∀ a rest, r input = .ok (a, rest) → ∃ used, input = used ++ rest ∧ Reads r used a ∧ Truncates r used
  fails : ∀ e more, r input = .error e → e ≠ .truncated → r (input ++ more) = .error e

/-- The reader decides by what it takes. -/
structure Delimits {α : Type} (r : Reader α) : Prop where
  ends : ∀ input a rest, r input = .ok (a, rest) → ∃ used, input = used ++ rest ∧ Reads r used a ∧ Truncates r used
  fails : ∀ input e more, r input = .error e → e ≠ .truncated → r (input ++ more) = .error e

theorem delimits_iff {α : Type} {r : Reader α} : Delimits r ↔ ∀ input, DelimitsAt r input :=
  ⟨fun h input => ⟨h.ends input, h.fails input⟩, fun h => ⟨fun input => (h input).ends, fun input => (h input).fails⟩⟩

namespace Delimits
variable {α β : Type} {r : Reader α} {k : α → Reader β} {input rest : Bytes}

/-! ## The parts of a reader -/

theorem bind_ok {a : α} (h : r input = .ok (a, rest)) : (r >>= k) input = k a rest := by
  show (r input >>= fun p => k p.1 p.2) = _
  rw [h]
  rfl

theorem bind_error {e : ParseError} (h : r input = .error e) : (r >>= k) input = .error e := by
  show (r input >>= fun p => k p.1 p.2) = _
  rw [h]
  rfl

/-- A longer input is read in the same way. -/
theorem append {a : α} (h : Delimits r) (hread : r input = .ok (a, rest)) (more : Bytes) :
    r (input ++ more) = .ok (a, rest ++ more) := by
  obtain ⟨used, rfl, hreads, -⟩ := h.ends _ _ _ hread
  rw [List.append_assoc]
  exact hreads (rest ++ more)

/-- What is read off a longer input is all in the shorter one, or else that one is truncated. -/
theorem exists_of_append {a : α} {more : Bytes} (h : Delimits r) (hread : r (input ++ more) = .ok (a, rest))
    (hne : r input ≠ .error .truncated) : ∃ short, r input = .ok (a, short) ∧ rest = short ++ more := by
  cases hfirst : r input with
  | error e =>
    have hfault : e ≠ .truncated := fun he => hne (he ▸ hfirst)
    cases (h.fails _ _ more hfirst hfault).symm.trans hread
  | ok first =>
    cases (h.append hfirst more).symm.trans hread
    exact ⟨_, rfl, rfl⟩

theorem pure (a : α) : Delimits (Pure.pure a) where
  ends input b rest h := by
    cases h
    refine ⟨[], rfl, .pure a, fun short missing heq hne => ?_⟩
    exact absurd (List.append_eq_nil_iff.1 heq.symm).2 hne
  fails _ _ _ h := by cases h

theorem throw (e : ParseError) : Delimits (MonadExcept.throw e : Reader α) where
  ends _ _ _ h := by cases h
  fails _ _ _ h _ := by
    cases h
    rfl

/-- The second part has only what the first one leaves. -/
theorem at_bind (h : DelimitsAt r input) (hk : ∀ a middle, r input = .ok (a, middle) → DelimitsAt (k a) middle) :
    DelimitsAt (r >>= k) input where
  ends b rest hb := by
    cases hr : r input with
    | error e =>
      rw [bind_error hr] at hb
      cases hb
    | ok first =>
      obtain ⟨a, middle⟩ := first
      rw [bind_ok hr] at hb
      obtain ⟨used', hmiddle, hreads', htruncates'⟩ := (hk a middle hr).ends _ _ hb
      obtain ⟨used, hinput, hreads, htruncates⟩ := h.ends _ _ hr
      rw [hmiddle, ← List.append_assoc] at hinput
      refine ⟨used ++ used', hinput, hreads.bind hreads', fun short missing heq hne => ?_⟩
      -- the input ends in the second part, or before it
      rcases List.append_eq_append_iff.1 heq with ⟨front, rfl, hmissing⟩ | ⟨back, hused, hmissing⟩
      · rw [bind_ok (hreads front), htruncates' _ missing hmissing hne]
      · by_cases hback : back = []
        · rw [hback, List.append_nil] at hused
          rw [hback, List.nil_append] at hmissing
          have hshort : r short = .ok (a, []) := by
            have hnil := hreads []
            rwa [List.append_nil, hused] at hnil
          rw [bind_ok hshort, htruncates' [] missing hmissing.symm hne]
        · rw [bind_error (htruncates short back hused hback)]
  fails e more he hne := by
    cases hr : r input with
    | error e' =>
      rw [bind_error hr] at he
      cases he
      rw [bind_error (h.fails _ more hr hne)]
    | ok first =>
      obtain ⟨a, middle⟩ := first
      rw [bind_ok hr] at he
      obtain ⟨used, rfl, hreads, -⟩ := h.ends _ _ hr
      rw [List.append_assoc, bind_ok (hreads (middle ++ more)), (hk a middle hr).fails _ more he hne]

theorem bind (h : Delimits r) (hk : ∀ a, Delimits (k a)) : Delimits (r >>= k) :=
  delimits_iff.2 fun input => at_bind (delimits_iff.1 h input) fun a middle _ => delimits_iff.1 (hk a) middle

theorem map (f : α → β) (h : Delimits r) : Delimits (r >>= fun a => Pure.pure (f a)) := h.bind fun a => .pure (f a)

theorem u8 : Delimits Reader.u8 where
  ends input a rest h := by
    cases input with
    | nil => cases h
    | cons b tail =>
      cases h
      refine ⟨[a], rfl, reads_u8 a, fun short missing heq hne => ?_⟩
      cases short with
      | nil => rfl
      | cons c short => exact absurd (List.append_eq_nil_iff.1 (List.cons.inj heq).2.symm).2 hne
  fails input e more h hne := by
    cases input with
    | nil =>
      cases h
      exact absurd rfl hne
    | cons b tail => cases h

theorem u16 : Delimits Reader.u16 := u8.bind fun _ => u8.map _

theorem u32 : Delimits Reader.u32 := u16.bind fun _ => u16.map _

theorem u64 : Delimits Reader.u64 := u32.bind fun _ => u32.map _

theorem take (count : Nat) : Delimits (Reader.take count) where
  ends input a rest h := by
    unfold Reader.take at h
    split at h
    case isTrue henough =>
      cases h
      rw [hasAtLeast_iff] at henough
      have hlength : (input.take count).length = count := List.length_take_of_le henough
      refine ⟨input.take count, (List.take_append_drop count input).symm, ?_, fun short missing heq hne => ?_⟩
      · have hreads := reads_take (input.take count)
        rwa [hlength] at hreads
      · have hshort : ¬short.hasAtLeast count = true := by
          rw [hasAtLeast_iff]
          have hsum := congrArg List.length heq
          rw [hlength, List.length_append] at hsum
          have hpos := List.length_pos_iff.2 hne
          omega
        rw [Reader.take, if_neg hshort]
    case isFalse => cases h
  fails input e more h hne := by
    unfold Reader.take at h
    split at h
    · cases h
    · cases h
      exact absurd rfl hne

theorem times {item : Reader α} (h : Delimits item) (count : Nat) : Delimits (Reader.times count item) := by
  induction count with
  | zero => exact .pure []
  | succ count ih => exact h.bind fun a => ih.map _

theorem counted {item : Reader α} (h : Delimits item) : Delimits (Reader.counted item) := u16.bind fun _ => h.times _

end Delimits

/-! ## Constants -/

namespace Constant

theorem delimits_read (index : UInt16) : Delimits (read index) := by
  refine Delimits.u8.bind fun tag => ?_
  split
  case h_1 =>
    refine Delimits.u16.bind fun length => (Delimits.take _).bind fun bytes => ?_
    cases Text.ModifiedUtf8.decode bytes with
    | some text => exact .pure _
    | none => exact .throw _
  case h_2 | h_3 => exact Delimits.u32.map _
  case h_4 | h_5 => exact Delimits.u64.map _
  case h_6 | h_7 | h_13 | h_16 | h_17 => exact Delimits.u16.map _
  case h_8 | h_9 | h_10 | h_11 | h_14 | h_15 => exact Delimits.u16.bind fun _ => Delimits.u16.map _
  case h_12 => exact Delimits.u8.bind fun _ => Delimits.u16.map _
  case h_18 => exact .throw _

/-- Each constant takes bytes of its own, also where the counter starts again. -/
theorem delimits_readSlots (count index : UInt16) : Delimits (readSlots count index) := by
  refine delimits_iff.2 fun input => ?_
  induction hn : input.length using Nat.strong_induction_on generalizing index input with
  | _ n ih =>
    subst hn
    by_cases hlt : index < count
    · rw [readSlots_of_lt hlt]
      refine Delimits.at_bind (delimits_iff.1 (delimits_read index) input) fun c middle hread => ?_
      refine Delimits.at_bind (ih _ (length_lt_of_read hread) _ middle rfl) fun entries rest _ => ?_
      exact delimits_iff.1 (.pure _) rest
    · rw [readSlots_of_le (UInt16.not_lt.1 hlt)]
      exact delimits_iff.1 (.pure []) input

theorem delimits_readPool : Delimits readPool := Delimits.u16.bind fun _ => (delimits_readSlots _ 1).map _

end Constant

/-! ## Attributes and members -/

theorem ExceptionRange.delimits_read : Delimits ExceptionRange.read :=
  Delimits.u16.bind fun _ => Delimits.u16.bind fun _ => Delimits.u16.bind fun _ => Delimits.u16.map _

theorem Attribute.delimits_readName (pool : Array Constant) (index : UInt16) : Delimits (readName pool index) := by
  unfold readName
  split
  · exact .pure _
  · exact .throw _

theorem Attribute.delimits_readContent {nested : Reader AttributeTable} (h : Delimits nested) (name : String)
    (length : UInt32) : Delimits (readContent nested name length) := by
  unfold readContent
  split
  · exact Delimits.u16.bind fun _ => Delimits.u16.bind fun _ => Delimits.u32.bind fun _ =>
      (Delimits.take _).bind fun _ => ExceptionRange.delimits_read.counted.bind fun _ => h.map _
  · split
    · exact Delimits.u16.map _
    · exact (Delimits.take _).map _

namespace AttributeTable

/-- One entry of the table, where `nested` reads the attributes of a `Code` attribute. -/
def readEntry (pool : Array Constant) (nested : Reader AttributeTable) : Reader (String × Attribute) := do
  let name ← Attribute.readName pool (← u16)
  let length ← u32
  return (name, ← Attribute.readContent nested name length)

theorem read_succ (pool : Array Constant) (depth : Nat) :
    read pool (depth + 1) = counted (readEntry pool (read pool depth)) >>= fun entries => pure (ofList entries) := by
  rw [read]
  rfl

theorem read_nil (pool : Array Constant) (depth : Nat) : read pool depth [] = .error .truncated := by
  cases depth with
  | zero =>
    rw [read]
    rfl
  | succ depth =>
    rw [read_succ, Delimits.bind_error (e := .truncated)]
    exact Delimits.bind_error rfl

theorem delimits_readEntry (pool : Array Constant) {nested : Reader AttributeTable} (h : Delimits nested) :
    Delimits (readEntry pool nested) :=
  Delimits.u16.bind fun index => (Attribute.delimits_readName pool index).bind fun name =>
    Delimits.u32.bind fun length => (Attribute.delimits_readContent h name length).map _

/-- At any depth. -/
theorem delimits_read (pool : Array Constant) (depth : Nat) : Delimits (read pool depth) := by
  induction depth with
  | zero =>
    rw [read]
    exact .throw _
  | succ depth ih =>
    rw [read_succ]
    exact (delimits_readEntry pool ih).counted.map _

end AttributeTable

theorem Member.delimits_read (pool : Array Constant) (depth : Nat) : Delimits (Member.read pool depth) :=
  Delimits.u16.bind fun _ => Delimits.u16.bind fun _ => Delimits.u16.bind fun _ =>
    (AttributeTable.delimits_read pool depth).map _

theorem ClassFile.delimits_readVersion : Delimits readVersion := by
  refine Delimits.u32.bind fun found => ?_
  split
  case isTrue => exact .throw _
  case isFalse => exact Delimits.u16.bind fun _ => Delimits.u16.map _

theorem ClassFile.delimits_read (depth : Nat) : Delimits (ClassFile.read depth) :=
  delimits_readVersion.bind fun _ => Constant.delimits_readPool.bind fun pool =>
    Delimits.u16.bind fun _ => Delimits.u16.bind fun _ => Delimits.u16.bind fun _ =>
      Delimits.u16.counted.bind fun _ => (Member.delimits_read pool depth).counted.bind fun _ =>
        (Member.delimits_read pool depth).counted.bind fun _ =>
          (AttributeTable.delimits_read pool depth).map _

/-! ## Any depth will do -/

/-- The two readers do the same on inputs of at most `n` bytes. -/
def AgreeWithin {α : Type} (n : Nat) (r r' : Reader α) : Prop := ∀ input : Bytes, input.length ≤ n → r input = r' input

namespace AgreeWithin
variable {α β : Type} {n : Nat} {r r' : Reader α} {k k' : α → Reader β}

theorem refl (n : Nat) (r : Reader α) : AgreeWithin n r r := fun _ _ => rfl

theorem bind (h : AgreeWithin n r r') (hr : Delimits r') (hk : ∀ a, AgreeWithin n (k a) (k' a)) :
    AgreeWithin n (r >>= k) (r' >>= k') := by
  intro input hle
  cases hread : r' input with
  | error e => rw [Delimits.bind_error hread, Delimits.bind_error ((h input hle).trans hread)]
  | ok first =>
    obtain ⟨a, rest⟩ := first
    obtain ⟨used, rfl, -, -⟩ := hr.ends _ _ _ hread
    rw [Delimits.bind_ok hread, Delimits.bind_ok ((h _ hle).trans hread)]
    rw [List.length_append] at hle
    exact hk a rest (by omega)

theorem map {f : α → β} (h : AgreeWithin n r r') (hr : Delimits r') :
    AgreeWithin n (r >>= fun a => Pure.pure (f a)) (r' >>= fun a => Pure.pure (f a)) :=
  h.bind hr fun _ => .refl n _

/-- Behind the same reader. -/
theorem after (hr : Delimits r) (hk : ∀ a, AgreeWithin n (k a) (k' a)) : AgreeWithin n (r >>= k) (r >>= k') :=
  (refl n r).bind hr hk

theorem times {item item' : Reader α} (h : AgreeWithin n item item') (hr : Delimits item') (count : Nat) :
    AgreeWithin n (Reader.times count item) (Reader.times count item') := by
  induction count with
  | zero => exact .refl n _
  | succ count ih => exact h.bind hr fun a => ih.map (hr.times count)

/-- A count takes bytes of its own, so there are fewer for what it counts. -/
theorem counted_succ {item item' : Reader α} (h : AgreeWithin n item item') (hr : Delimits item') :
    AgreeWithin (n + 1) (Reader.counted item) (Reader.counted item') := by
  intro input hle
  match input with
  | [] => rfl
  | [_] => rfl
  | _ :: _ :: rest => exact h.times hr _ rest (Nat.le_of_succ_le (Nat.le_of_succ_le_succ hle))

theorem counted {item item' : Reader α} (h : AgreeWithin n item item') (hr : Delimits item') :
    AgreeWithin n (Reader.counted item) (Reader.counted item') :=
  after .u16 fun _ => h.times hr _

end AgreeWithin

theorem Attribute.readContent_congr {n : Nat} {nested nested' : Reader AttributeTable}
    (h : AgreeWithin n nested nested') (hr : Delimits nested') (name : String) (length : UInt32) :
    AgreeWithin n (readContent nested name length) (readContent nested' name length) := by
  unfold readContent
  split
  · exact .after .u16 fun _ => .after .u16 fun _ => .after .u32 fun _ => .after (.take _) fun _ =>
      .after ExceptionRange.delimits_read.counted fun _ => h.map hr
  · exact .refl n _

theorem AttributeTable.readEntry_congr (pool : Array Constant) {n : Nat} {nested nested' : Reader AttributeTable}
    (h : AgreeWithin n nested nested') (hr : Delimits nested') :
    AgreeWithin n (readEntry pool nested) (readEntry pool nested') :=
  .after .u16 fun index => .after (Attribute.delimits_readName pool index) fun name => .after .u32 fun length =>
    (Attribute.readContent_congr h hr name length).map (Attribute.delimits_readContent hr name length)

/-- With as many levels as there are bytes, further levels are not reached. -/
theorem AttributeTable.read_congr (pool : Array Constant) {n depth depth' : Nat} (hdepth : n ≤ depth)
    (hdepth' : n ≤ depth') : AgreeWithin n (read pool depth) (read pool depth') := by
  induction n generalizing depth depth' with
  | zero =>
    intro input hle
    rw [List.eq_nil_of_length_eq_zero (Nat.le_zero.1 hle), read_nil, read_nil]
  | succ n ih =>
    obtain ⟨more, rfl⟩ := Nat.exists_eq_add_of_lt hdepth
    obtain ⟨more', rfl⟩ := Nat.exists_eq_add_of_lt hdepth'
    have hentry := readEntry_congr pool (ih (Nat.le_add_right n more) (Nat.le_add_right n more'))
      (delimits_read pool (n + more'))
    have hdelimits := delimits_readEntry pool (delimits_read pool (n + more'))
    rw [read_succ, read_succ]
    exact (hentry.counted_succ hdelimits).map hdelimits.counted

theorem Member.read_congr (pool : Array Constant) {n depth depth' : Nat} (hdepth : n ≤ depth) (hdepth' : n ≤ depth') :
    AgreeWithin n (Member.read pool depth) (Member.read pool depth') :=
  .after .u16 fun _ => .after .u16 fun _ => .after .u16 fun _ =>
    (AttributeTable.read_congr pool hdepth hdepth').map (AttributeTable.delimits_read pool depth')

theorem ClassFile.read_congr {n depth depth' : Nat} (hdepth : n ≤ depth) (hdepth' : n ≤ depth') :
    AgreeWithin n (ClassFile.read depth) (ClassFile.read depth') := by
  refine .after delimits_readVersion fun version => .after Constant.delimits_readPool fun pool => ?_
  have hmember := Member.read_congr pool hdepth hdepth'
  have hdelimits := Member.delimits_read pool depth'
  exact .after .u16 fun _ => .after .u16 fun _ => .after .u16 fun _ => .after Delimits.u16.counted fun _ =>
    (hmember.counted hdelimits).bind hdelimits.counted fun _ => (hmember.counted hdelimits).bind hdelimits.counted
      fun _ => (AttributeTable.read_congr pool hdepth hdepth').map (AttributeTable.delimits_read pool depth')

/-! ## The parser -/

namespace ClassFile
variable {bytes used : Bytes} {file : ClassFile}

theorem parse_eq {depth : Nat} (hdepth : bytes.length ≤ depth) : parse bytes = (read depth bytes).map (·.1) := by
  rw [parse, read_congr (le_refl _) hdepth bytes (le_refl _)]

/-- What is read at one depth is read at any other one, and whatever follows it. -/
theorem reads_of_read {depth : Nat} (h : read depth used = .ok (file, [])) (hdepth : used.length ≤ depth)
    {depth' : Nat} (hdepth' : used.length ≤ depth') : Reads (read depth') used file := by
  rw [read_congr hdepth hdepth' used (le_refl _)] at h
  obtain ⟨used', hused, hreads, -⟩ := (delimits_read depth').ends _ _ _ h
  rw [List.append_nil] at hused
  rwa [hused]

/-- A class file at the front of the input. -/
theorem exists_used (h : parse bytes = .ok file) : ∃ used, used <+: bytes ∧ (∀ more, parse (used ++ more) = .ok file) ∧
    ∀ short missing, used = short ++ missing → missing ≠ [] → parse short = .error .truncated := by
  obtain ⟨rest, hread⟩ : ∃ rest, read bytes.length bytes = .ok (file, rest) := by
    rw [parse] at h
    cases hread : read bytes.length bytes with
    | error e =>
      rw [hread] at h
      cases h
    | ok first =>
      rw [hread] at h
      cases h
      exact ⟨first.2, rfl⟩
  obtain ⟨used, hbytes, hreads, htruncates⟩ := (delimits_read bytes.length).ends _ _ _ hread
  have hprefix : used <+: bytes := ⟨rest, hbytes.symm⟩
  have hnil : read bytes.length used = .ok (file, []) := by
    have hnil := hreads []
    rwa [List.append_nil] at hnil
  refine ⟨used, hprefix, fun more => ?_, fun short missing heq hne => ?_⟩
  · rw [parse, reads_of_read hnil hprefix.length_le (List.prefix_append used more).length_le more]
    rfl
  · have hshort : short <+: used := ⟨missing, heq.symm⟩
    rw [parse_eq (hshort.trans hprefix).length_le, htruncates short missing heq hne]
    rfl

/-- A fault does not depend on what follows. -/
theorem parse_append {e : ParseError} (h : parse bytes = .error e) (hne : e ≠ .truncated) (more : Bytes) :
    parse (bytes ++ more) = .error e := by
  rw [parse_eq (List.prefix_append bytes more).length_le] at h
  cases hread : read (bytes ++ more).length bytes with
  | error e' =>
    rw [hread] at h
    cases h
    rw [parse, (delimits_read _).fails _ _ more hread hne]
    rfl
  | ok first =>
    rw [hread] at h
    cases h

end ClassFile

end Jvm
