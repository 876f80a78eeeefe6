import Jvm.Bytes
import Jvm.Text.Hex

/-!
# Reading off the front of a byte string

A `Reader` takes what it needs off the front of its input and leaves the rest, or fails.
-/

namespace Jvm

/-- Why a byte string is no class file. -/
inductive ParseError where
  /-- The first word is not the one that class files start with. -/
  | invalidMagic (found : UInt32)
  /-- The input ends too early. -/
  | truncated
  /-- No constant has this tag; `index` is its slot. -/
  | unknownTag (tag : UInt8) (index : UInt16)
  /-- The text constant of this slot is not modified UTF-8. -/
  | invalidUtf8 (index : UInt16)
  /-- An attribute takes its name from this slot, which holds no text. -/
  | badAttributeName (index : UInt16)
deriving DecidableEq, Repr

namespace ParseError

/-- The error as text. -/
def message : ParseError → String
  | .invalidMagic found =>
    "invalid magic " ++ Text.Hex.numeral 8 found.toNat ++ ", expected 0xcafebabe"
  | .truncated => "truncated class file: failed to fill whole buffer"
  | .unknownTag tag index =>
    "unknown constant pool tag " ++ toString tag.toNat ++ " at index " ++ toString index.toNat
  | .invalidUtf8 index =>
    "invalid modified UTF-8 in constant pool entry " ++ toString index.toNat
  | .badAttributeName index =>
    "attribute name index " ++ toString index.toNat ++ " does not point at a UTF-8 constant"

end ParseError

/-- A computation that takes bytes off the front of its input. -/
abbrev Reader := StateT Bytes (Except ParseError)

namespace Reader

/-- One byte. -/
def u8 : Reader UInt8
  | [] => .error .truncated
  | a :: rest => .ok (a, rest)

/-- A 16-bit word. -/
def u16 : Reader UInt16 := return Bytes.word16 (← u8) (← u8)

/-- A 32-bit word. -/
def u32 : Reader UInt32 := return Bytes.word32 (← u16) (← u16)

/-- A 64-bit word. -/
def u64 : Reader UInt64 := return Bytes.word64 (← u32) (← u32)

/-- The next `count` bytes. -/
def take (count : Nat) : Reader Bytes := fun input =>
  if input.hasAtLeast count then .ok (input.take count, input.drop count) else .error .truncated

/-- The results of reading `count` times. -/
def times {α : Type} (count : Nat) (item : Reader α) : Reader (List α) :=
  match count with
  | 0 => return []
  | count + 1 => return (← item) :: (← times count item)

/-- A 16-bit count and the results of reading so many times. -/
def counted {α : Type} (item : Reader α) : Reader (List α) := do times (← u16).toNat item

/-! ## What readers leave -/

/-- The reader leaves no more than it was given. -/
def Shrinks {α : Type} (r : Reader α) : Prop :=
  ∀ input a rest, r input = .ok (a, rest) → rest.length ≤ input.length

namespace Shrinks
variable {α β : Type} {r : Reader α}

theorem pure (a : α) : Shrinks (Pure.pure a) := by
  intro input b rest h
  cases h
  exact Nat.le_refl _

theorem throw (e : ParseError) : Shrinks (MonadExcept.throw e : Reader α) := by
  intro input b rest h
  cases h

theorem bind {k : α → Reader β} (h : Shrinks r) (hk : ∀ a, Shrinks (k a)) : Shrinks (r >>= k) := by
  intro input b rest hb
  change (r input >>= fun p => k p.1 p.2) = _ at hb
  cases hr : r input with
  | error e =>
    rw [hr] at hb
    cases hb
  | ok first =>
    rw [hr] at hb
    exact Nat.le_trans (hk first.1 first.2 b rest hb) (h input first.1 first.2 hr)

theorem map (f : α → β) (h : Shrinks r) : Shrinks (r >>= fun a => Pure.pure (f a)) := h.bind fun a => .pure (f a)

theorem u8 : Shrinks Reader.u8 := by
  intro input a rest h
  cases input with
  | nil => cases h
  | cons b tail =>
    cases h
    exact Nat.le_succ _

theorem u16 : Shrinks Reader.u16 := u8.bind fun _ => u8.map _

theorem u32 : Shrinks Reader.u32 := u16.bind fun _ => u16.map _

theorem u64 : Shrinks Reader.u64 := u32.bind fun _ => u32.map _

theorem take (count : Nat) : Shrinks (Reader.take count) := by
  intro input a rest h
  unfold Reader.take at h
  split at h
  · cases h
    rw [List.length_drop]
    exact Nat.sub_le _ _
  · cases h

end Shrinks

end Reader

end Jvm
