import Jvm.Proofs.Streams

/-!
# The standard native methods, one by one

`Renders` says how a value is written for a parameter of some type, and `render` does just that
(`renders_iff`). Whatever `print` and `println` print, they hand a text to one stream and flush it, which is
`emit`; called on anything but a stream they fail before that.

The standard table has no other members: `standard_method?` and `standard_field?` say what it finds.
-/

namespace Jvm

namespace Print

/-! ## Rendering -/

/-- The text of a value for a parameter of a type. -/
inductive Renders : FieldType → Value → String → Prop
  | no : Renders (.primitive .boolean) (.int 0) "false"
  | yes {v : Int32} : v ≠ 0 → Renders (.primitive .boolean) (.int v) "true"
  /-- A character is given by the low 16 bits. -/
  | char {v : Int32} {c : Char} : c.toNat = v.toUInt32.toNat % 65536 →
      Renders (.primitive .char) (.int v) (String.singleton c)
  /-- Half a surrogate pair is no character. -/
  | surrogate {v : Int32} : 0xd800 ≤ v.toUInt32.toNat % 65536 → v.toUInt32.toNat % 65536 ≤ 0xdfff →
      Renders (.primitive .char) (.int v) "\uFFFD"
  | decimal {type : FieldType} {v : Int32} : type ≠ .primitive .boolean → type ≠ .primitive .char →
      Renders type (.int v) (toString v.toInt)
  | null {type : FieldType} : Renders type .null "null"
  | handle {type : FieldType} (handle : StreamHandle) : Renders type (.stream handle) handle.name

section
variable {type : FieldType} {value : Value} {text : String}

/-- Of the numbers with 16 bits, the surrogates are those that are no characters. -/
theorem isValidChar_iff {n : Nat} (h : n < 65536) : n.isValidChar ↔ ¬(0xd800 ≤ n ∧ n ≤ 0xdfff) := by
  unfold Nat.isValidChar
  omega

theorem charOf_of_toNat {v : Int32} {c : Char} (h : c.toNat = v.toUInt32.toNat % 65536) : charOf v = c := by
  have hvalid : (v.toUInt32.toNat % 65536).isValidChar := h ▸ c.valid
  rw [charOf]
  simp only [if_pos hvalid]
  rw [← h, Char.ofNat_toNat]

theorem charOf_of_surrogate {v : Int32} (h : 0xd800 ≤ v.toUInt32.toNat % 65536)
    (h' : v.toUInt32.toNat % 65536 ≤ 0xdfff) : charOf v = '\uFFFD' := by
  have hvalid : ¬(v.toUInt32.toNat % 65536).isValidChar := by
    rw [isValidChar_iff (Nat.mod_lt _ (by decide))]
    exact not_not.2 ⟨h, h'⟩
  rw [charOf]
  simp only [if_neg hvalid]

theorem render_of_renders (h : Renders type value text) : render value (some type) = text := by
  cases h with
  | no => rfl
  | yes hv => exact if_neg hv
  | char hc => simp only [render, charOf_of_toNat hc, Char.toString]
  | surrogate hlow hhigh =>
    simp only [render, charOf_of_surrogate hlow hhigh]
    rfl
  | decimal hboolean hchar =>
    unfold render
    split
    · rename_i heq _
      exact absurd (Option.some.inj heq) hboolean
    · rename_i heq _
      exact absurd (Option.some.inj heq) hchar
    · rfl
  | null =>
    unfold render
    split <;> first | rfl | contradiction
  | handle handle =>
    unfold render
    split <;> first | rfl | contradiction

theorem renders_char (v : Int32) : ∃ text, Renders (.primitive .char) (.int v) text := by
  have hlt : v.toUInt32.toNat % 65536 < 65536 := Nat.mod_lt _ (by decide)
  by_cases hsurrogate : 0xd800 ≤ v.toUInt32.toNat % 65536 ∧ v.toUInt32.toNat % 65536 ≤ 0xdfff
  · exact ⟨_, .surrogate hsurrogate.1 hsurrogate.2⟩
  · have hvalid := (isValidChar_iff hlt).2 hsurrogate
    exact ⟨_, .char (c := Char.ofNatAux _ hvalid) rfl⟩

/-- Each value has a text, whatever the type. -/
theorem exists_renders (type : FieldType) (value : Value) : ∃ text, Renders type value text := by
  cases value with
  | null => exact ⟨_, .null⟩
  | stream handle => exact ⟨_, .handle handle⟩
  | int v =>
    by_cases hboolean : type = .primitive .boolean
    · subst hboolean
      by_cases hv : v = 0
      · subst hv
        exact ⟨_, .no⟩
      · exact ⟨_, .yes hv⟩
    · by_cases hchar : type = .primitive .char
      · subst hchar
        exact renders_char v
      · exact ⟨_, .decimal hboolean hchar⟩

/-- **Rendering** is what `Renders` says. -/
theorem renders_iff : Renders type value text ↔ render value (some type) = text := by
  refine ⟨render_of_renders, ?_⟩
  rintro rfl
  obtain ⟨text, h⟩ := exists_renders type value
  rw [render_of_renders h]
  exact h

end

example : render (.int 0x10041) (some (.primitive .char)) = "A" := by decide +kernel

example : render (.int 0xd800) (some (.primitive .char)) = "\uFFFD" := by decide +kernel

/-! ## Writing -/

/-- Writes a text and flushes. -/
def emit (handle : StreamHandle) (text : String) : Output (Option Value) := do
  Streams.write handle text
  Streams.flush handle
  return none

section
variable {handle : StreamHandle} {text : String} {v : Value} {type : FieldType} {streams : Streams}

theorem print_stream (handle : StreamHandle) (v : Value) (type : FieldType) :
    print { receiver := some (.stream handle), arguments := [v], types := [type] } =
      emit handle (render v (some type)) := rfl

theorem println_stream (handle : StreamHandle) (v : Value) (type : FieldType) :
    println { receiver := some (.stream handle), arguments := [v], types := [type] } =
      emit handle (render v (some type) ++ "\n") := by
  rw [emit, ← Streams.write_bind_write, bind_assoc]
  rfl

theorem println_nothing (handle : StreamHandle) :
    println { receiver := some (.stream handle) } = emit handle "\n" := rfl

/-- What is called on something else fails, and writes nothing. -/
theorem exists_error_of_receiver {call : NativeCall} (h : ∀ handle, call.receiver ≠ some (.stream handle)) :
    (∀ streams, ∃ e, print call streams = .error e streams) ∧
      ∀ streams, ∃ e, println call streams = .error e streams := by
  have hreceiver : ∃ e, receiver call = .error e := by
    unfold receiver
    split
    · rename_i handle heq
      exact absurd heq (h handle)
    · exact ⟨_, rfl⟩
    · exact ⟨_, rfl⟩
    · exact ⟨_, rfl⟩
  obtain ⟨e, he⟩ := hreceiver
  refine ⟨fun streams => ⟨e, ?_⟩, fun streams => ⟨e, ?_⟩⟩
  · rw [print, he]
    rfl
  · rw [println, he]
    rfl

/-- Whenever the computation comes to its end, it gives no value. -/
def GivesNothing (act : Output (Option Value)) : Prop :=
  ∀ streams result after, act streams = .ok result after → result = none

theorem GivesNothing.bind {α : Type} (act : Output α) {k : α → Output (Option Value)} (h : ∀ a, GivesNothing (k a)) :
    GivesNothing (act >>= k) := by
  intro streams result after hend
  obtain ⟨a, middle, -, hrest⟩ := exists_of_bind_eq_ok hend
  exact h a middle result after hrest

theorem givesNothing_flush (handle : StreamHandle) : GivesNothing (do Streams.flush handle; return none) :=
  .bind _ fun _ _ _ _ hend => by
    cases hend
    rfl

theorem givesNothing_print (call : NativeCall) : GivesNothing (print call) := by
  refine .bind _ fun handle => ?_
  cases argument? call with
  | none => exact givesNothing_flush handle
  | some text => exact .bind _ fun _ => givesNothing_flush handle

theorem givesNothing_println (call : NativeCall) : GivesNothing (println call) := by
  refine .bind _ fun handle => ?_
  have hend : GivesNothing (do Streams.write handle "\n"; Streams.flush handle; return none) :=
    .bind _ fun _ => givesNothing_flush handle
  cases argument? call with
  | none => exact hend
  | some text => exact .bind _ fun _ => hend

/-- A write that is refused writes nothing, and a flush that is refused changes nothing of what was written. -/
theorem emit_eq (handle : StreamHandle) (text : String) (streams : Streams) :
    emit handle text streams =
      match (streams.get handle).writeFault, (streams.get handle).flushFault with
      | some fault, _ => .error (.io fault) streams
      | none, some fault => .error (.io fault) (streams.plus (.on text handle))
      | none, none => .ok none (streams.plus (.on text handle)) := by
  unfold emit
  cases hwrite : (streams.get handle).writeFault with
  | some fault => exact bind_of_error (Streams.write_of_refused hwrite text)
  | none =>
    have hflush : ((streams.plus (.on text handle)).get handle).flushFault = (streams.get handle).flushFault := by
      rw [Streams.flushFault_get, Streams.behaviour_plus, ← Streams.flushFault_get]
    rw [bind_of_ok (Streams.write_of_unrefused hwrite text), ← hflush]
    cases hfault : ((streams.plus (.on text handle)).get handle).flushFault with
    | some fault =>
      have h : Streams.flush handle (streams.plus (.on text handle)) =
          .error (.io fault) (streams.plus (.on text handle)) := by simp only [Streams.flush, hfault]
      exact bind_of_error h
    | none =>
      have h : Streams.flush handle (streams.plus (.on text handle)) = .ok () (streams.plus (.on text handle)) := by
        simp only [Streams.flush, hfault]
      exact bind_of_ok h

end

end Print

/-- Neither stream refuses to write or to flush. -/
def Streams.Accept (streams : Streams) : Prop :=
  ∀ handle, (streams.get handle).writeFault = none ∧ (streams.get handle).flushFault = none

namespace Streams
variable {streams : Streams} {handle other : StreamHandle} {text : String}

theorem Accept.plus (h : streams.Accept) (printed : Printed) : (streams.plus printed).Accept := by
  intro handle
  rw [writeFault_get, flushFault_get, behaviour_plus, ← writeFault_get, ← flushFault_get]
  exact h handle

theorem emit_of_accept (h : streams.Accept) (handle : StreamHandle) (text : String) :
    Print.emit handle text streams = .ok none (streams.plus (.on text handle)) := by
  rw [Print.emit_eq, (h handle).1, (h handle).2]

/-- A text for one stream is no text for the other. -/
theorem get_plus_of_ne (h : handle ≠ other) : (streams.plus (.on text other)).get handle = streams.get handle := by
  cases handle <;> cases other <;> first | contradiction | simp [plus, get, Printed.on]

theorem written_plus (streams : Streams) (text : String) (handle other : StreamHandle) :
    ((streams.plus (.on text other)).get handle).written =
      (streams.get handle).written ++ if other = handle then text else "" := by
  cases handle <;> cases other <;> simp [plus, get, Printed.on]

end Streams

/-! ## The standard table -/

namespace NativeTable
variable {owner name : String} {arity : Nat}

/-- The methods are virtual. -/
theorem standard_method?_static (owner name : String) (arity : Nat) :
    standard.method? .static owner name arity = none := by
  simp [method?, standard]

/-- The methods are those that print. -/
theorem standard_method? {action : NativeAction} (h : standard.method? .virtual owner name arity = some action) :
    owner = "java/io/PrintStream" ∧
      (name = "print" ∧ arity = 1 ∧ action = Print.print ∨ name = "println" ∧ arity = 1 ∧ action = Print.println ∨
        name = "println" ∧ arity = 0 ∧ action = Print.println) := by
  obtain ⟨method, hfind, rfl⟩ := Option.map_eq_some_iff.1 h
  have hkey := List.find?_some hfind
  have hmem := List.mem_of_find?_eq_some hfind
  simp only [Bool.and_eq_true, beq_iff_eq] at hkey
  obtain ⟨⟨⟨-, rfl⟩, rfl⟩, rfl⟩ := hkey
  simp only [standard, List.mem_cons, List.not_mem_nil, or_false] at hmem
  rcases hmem with rfl | rfl | rfl
  · exact ⟨rfl, .inl ⟨rfl, rfl, rfl⟩⟩
  · exact ⟨rfl, .inr (.inl ⟨rfl, rfl, rfl⟩)⟩
  · exact ⟨rfl, .inr (.inr ⟨rfl, rfl, rfl⟩)⟩

end NativeTable

/-- The name of the field that has the stream. -/
def StreamHandle.field : StreamHandle → String
  | .stdout => "out"
  | .stderr => "err"

/-- The fields are the two streams. -/
theorem NativeTable.standard_field? {owner name : String} {v : Value} (h : standard.field? owner name = some v) :
    ∃ handle, v = .stream handle ∧ owner = "java/lang/System" ∧ name = handle.field := by
  obtain ⟨field, hfind, rfl⟩ := Option.map_eq_some_iff.1 h
  have hkey := List.find?_some hfind
  have hmem := List.mem_of_find?_eq_some hfind
  simp only [Bool.and_eq_true, beq_iff_eq] at hkey
  obtain ⟨rfl, rfl⟩ := hkey
  simp only [standard, List.mem_cons, List.not_mem_nil, or_false] at hmem
  rcases hmem with rfl | rfl
  · exact ⟨.stderr, rfl, rfl, rfl⟩
  · exact ⟨.stdout, rfl, rfl, rfl⟩

end Jvm
