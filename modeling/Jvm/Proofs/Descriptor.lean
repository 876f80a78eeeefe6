import Jvm.Descriptor
import Jvm.Proofs.Text.Slice

/-!
# The grammar of descriptors

`FieldType.SpelledBy` and `MethodType.SpelledBy` say which texts spell a type, without a reader. The readers
of `Jvm.Descriptor` find just these spellings: `decode_eq_ok_some_iff` for a type at the front of a text and its
length in bytes, `decodeAll_eq_ok_some_iff` for the parameters, `ofDescriptor?_eq_some_iff` for a whole descriptor.
A spelling ends between two characters, so a text is never cut within one: each reader comes to an answer
(`exists_decode`, `exists_decodeAll`, `MethodType.exists_decode`).

No spelling is the beginning of another one, so a text is spelled together in one way at most
(`spellings_unique`). Main theorem `descriptor_grammar`.
-/

namespace Jvm

open Text

/-! ## The grammar -/

/-- The letter that stands for a primitive type. -/
def Primitive.letter : Primitive → Char
  | .boolean => 'Z'
  | .byte => 'B'
  | .char => 'C'
  | .short => 'S'
  | .int => 'I'
  | .long => 'J'
  | .float => 'F'
  | .double => 'D'

/-- The field descriptors of a type. A reference has one for each class name. -/
inductive FieldType.SpelledBy : FieldType → List Char → Prop
  | primitive (type : Primitive) : SpelledBy (.primitive type) [type.letter]
  | reference {name : List Char} : name ≠ [] → ';' ∉ name → SpelledBy .reference ('L' :: (name ++ [';']))
  | array {element : FieldType} {text : List Char} : SpelledBy element text →
      SpelledBy (.array element) ('[' :: text)

namespace MethodType

/-- The spellings of what a method gives. -/
inductive ResultSpelledBy : Option FieldType → List Char → Prop
  | void : ResultSpelledBy none ['V']
  | type {type : FieldType} {text : List Char} : type.SpelledBy text → ResultSpelledBy (some type) text

/-- The text is a descriptor of the method type, put together from the spellings of the parameters and of
the result. -/
structure SpelledBy (type : MethodType) (text : List Char) (parameters : List (List Char)) (result : List Char) :
    Prop where
  parts : text = '(' :: (parameters.flatten ++ ')' :: result)
  takes : List.Forall₂ FieldType.SpelledBy type.parameters parameters
  closed : ∀ parameter ∈ parameters, ')' ∉ parameter
  gives : ResultSpelledBy type.result result
  oneLine : '\n' ∉ result

end MethodType

/-! ## Up to a separator -/

section
variable {c d : Char} {text rest : List Char}

/-- A text up to a character that is not in it. -/
theorem takeWhile_ne_append (h : c ∉ text) (rest : List Char) :
    (text ++ c :: rest).takeWhile (· ≠ c) = text := by
  have hall : ∀ a ∈ text, decide (a ≠ c) = true := fun a ha => decide_eq_true fun heq => h (heq ▸ ha)
  rw [List.takeWhile_append_of_pos hall, List.takeWhile_cons_of_neg (by simp), List.append_nil]

theorem dropWhile_ne_append (h : c ∉ text) (rest : List Char) :
    (text ++ c :: rest).dropWhile (· ≠ c) = c :: rest := by
  have hall : ∀ a ∈ text, decide (a ≠ c) = true := fun a ha => decide_eq_true fun heq => h (heq ▸ ha)
  rw [List.dropWhile_append_of_pos hall, List.dropWhile_cons_of_neg (by simp)]

theorem not_mem_takeWhile_ne (c : Char) (text : List Char) : c ∉ text.takeWhile (· ≠ c) := fun hmem => by
  simpa using List.mem_takeWhile_imp hmem

/-- What is left after dropping begins with the separator. -/
theorem eq_append_of_dropWhile_ne (h : text.dropWhile (· ≠ c) = d :: rest) :
    text = text.takeWhile (· ≠ c) ++ c :: rest := by
  have hd : d = c := by
    have hhead := List.head?_dropWhile_not (· ≠ c) text
    rw [h] at hhead
    simpa using hhead
  rw [← hd, ← h, hd, List.takeWhile_append_dropWhile]

end

/-! ## One type -/

namespace Primitive

theorem ofLetter?_letter (type : Primitive) : ofLetter? type.letter = some type := by
  cases type <;> rfl

theorem ofLetter?_eq_some_iff {c : Char} {type : Primitive} : ofLetter? c = some type ↔ c = type.letter := by
  refine ⟨fun h => ?_, fun h => h ▸ ofLetter?_letter type⟩
  unfold ofLetter? at h
  split at h <;> cases h <;> rfl

theorem letter_ne_void (type : Primitive) : type.letter ≠ 'V' := by
  cases type <;> decide

theorem byteLength_letter (type : Primitive) : byteLength [type.letter] = 1 := by
  cases type <;> rfl

theorem letter_ne_bracket (type : Primitive) : type.letter ≠ '[' := by
  cases type <;> decide

theorem letter_ne_reference (type : Primitive) : type.letter ≠ 'L' := by
  cases type <;> decide

end Primitive

namespace FieldType
variable {type : FieldType} {result : Option FieldType} {text front rest : List Char} {length : Nat}

theorem decode_void (rest : List Char) : decode ('V' :: rest) = .ok (some (none, 1)) := by
  rw [decode, if_pos rfl]

theorem decode_letter (type : Primitive) (rest : List Char) :
    decode (type.letter :: rest) = .ok (some (some (.primitive type), 1)) := by
  rw [decode, if_neg type.letter_ne_void, if_neg type.letter_ne_reference, if_neg type.letter_ne_bracket,
    type.ofLetter?_letter, Option.map_some]

theorem decode_reference (text : List Char) :
    decode ('L' :: text) = .ok ((find? ';' ('L' :: text)).bind fun last =>
      if 1 < last then some (some .reference, last + 1) else none) := by
  rw [decode, if_neg (by decide), if_pos rfl]

/-- The bracket takes one byte. -/
theorem decode_array (text : List Char) : decode ('[' :: text) = (decode text).map fun found =>
    found.bind fun (element, length) => element.map fun type => (some (.array type), length + 1) := by
  have hcut : cutAt 1 ('[' :: text) = .ok text := cutAt_append ['['] text
  rw [decode, if_neg (by decide), if_neg (by decide), if_pos rfl]
  split
  · rename_i herror
    cases herror.symm.trans hcut
  · rename_i hok
    cases hok.symm.trans hcut
    rcases decode text with e | (_ | ⟨(_ | element), length⟩) <;> rfl

/-- The name of a class ends at the first `;`. -/
theorem find?_reference_iff {last : Nat} : find? ';' ('L' :: text) = some last ↔
    ∃ name rest, text = name ++ ';' :: rest ∧ ';' ∉ name ∧ 1 + byteLength name = last := by
  rw [find?, if_neg (by decide), Option.map_eq_some_iff]
  simp only [find?_eq_some_iff]
  constructor
  · rintro ⟨_, ⟨name, rest, htext, hname, rfl⟩, hlast⟩
    exact ⟨name, rest, htext, hname, hlast⟩
  · rintro ⟨name, rest, htext, hname, hlast⟩
    exact ⟨_, ⟨name, rest, htext, hname, rfl⟩, hlast⟩

theorem one_lt_iff_name {name : List Char} : 1 < 1 + byteLength name ↔ name ≠ [] := by
  rw [Ne, ← byteLength_eq_zero_iff]
  omega

theorem byteLength_reference (name : List Char) :
    byteLength ('L' :: (name ++ [';'])) = 1 + byteLength name + 1 := by
  rw [byteLength_cons, byteLength_append, Nat.add_assoc]
  rfl

/-- **No cut goes wrong** in reading a type. -/
theorem exists_decode (text : List Char) : ∃ found, decode text = .ok found := by
  induction text with
  | nil => exact ⟨none, by rw [decode]⟩
  | cons c text ih =>
    by_cases hbracket : c = '['
    · obtain ⟨found, hfound⟩ := ih
      rw [hbracket, decode_array, hfound]
      exact ⟨_, rfl⟩
    · rw [decode, if_neg hbracket]
      split
      · exact ⟨_, rfl⟩
      · split <;> exact ⟨_, rfl⟩

/-- A spelling is read, whatever follows it. -/
theorem SpelledBy.decode (h : type.SpelledBy front) (rest : List Char) :
    FieldType.decode (front ++ rest) = .ok (some (some type, byteLength front)) := by
  induction h with
  | primitive type => exact (decode_letter type rest).trans (by rw [type.byteLength_letter])
  | @reference name hname hclosed =>
    have hlast : find? ';' ('L' :: (name ++ ';' :: rest)) = some (1 + byteLength name) :=
      find?_reference_iff.2 ⟨name, rest, rfl, hclosed, rfl⟩
    rw [List.cons_append, List.append_assoc, List.singleton_append, decode_reference, hlast, Option.bind_some,
      if_pos (one_lt_iff_name.2 hname), byteLength_reference]
  | @array element text _ ih =>
    rw [List.cons_append, decode_array, ih, byteLength_cons, Nat.add_comm]
    rfl

/-- What is read is a spelling. -/
theorem exists_of_decode (h : FieldType.decode text = .ok (some (result, length))) :
    ∃ front rest, text = front ++ rest ∧ byteLength front = length ∧ MethodType.ResultSpelledBy result front := by
  induction text generalizing result length with
  | nil =>
    rw [FieldType.decode] at h
    cases h
  | cons c text ih =>
    rcases eq_or_ne c '[' with rfl | hbracket
    · obtain ⟨found, hfound⟩ := exists_decode text
      rw [decode_array, hfound] at h
      obtain ⟨⟨element, size⟩, rfl, helement⟩ := Option.bind_eq_some_iff.1 (Except.ok.inj h)
      obtain ⟨type, rfl, heq⟩ := Option.map_eq_some_iff.1 helement
      cases heq
      obtain ⟨front, rest, rfl, rfl, ⟨⟩ | hfront⟩ := ih hfound
      exact ⟨'[' :: front, rest, rfl, Nat.add_comm _ _, .type hfront.array⟩
    rcases eq_or_ne c 'V' with rfl | hvoid
    · rw [decode_void] at h
      cases h
      exact ⟨['V'], text, rfl, rfl, .void⟩
    rcases eq_or_ne c 'L' with rfl | hreference
    · rw [decode_reference] at h
      obtain ⟨last, hlast, h⟩ := Option.bind_eq_some_iff.1 (Except.ok.inj h)
      obtain ⟨name, rest, rfl, hclosed, rfl⟩ := find?_reference_iff.1 hlast
      split at h
      case isTrue hlong =>
        cases h
        exact ⟨'L' :: (name ++ [';']), rest, by simp, byteLength_reference name,
          .type (.reference (one_lt_iff_name.1 hlong) hclosed)⟩
      case isFalse => cases h
    · rw [FieldType.decode, if_neg hvoid, if_neg hreference, if_neg hbracket] at h
      obtain ⟨primitive, hletter, heq⟩ := Option.map_eq_some_iff.1 (Except.ok.inj h)
      cases heq
      obtain rfl := Primitive.ofLetter?_eq_some_iff.1 hletter
      exact ⟨[primitive.letter], text, rfl, primitive.byteLength_letter, .type (.primitive primitive)⟩

/-- **A type at the front of a text** is read just if one is spelled there, in so many bytes. -/
theorem decode_eq_ok_some_iff : FieldType.decode text = .ok (some (result, length)) ↔
    ∃ front rest, text = front ++ rest ∧ byteLength front = length ∧ MethodType.ResultSpelledBy result front := by
  refine ⟨exists_of_decode, ?_⟩
  rintro ⟨front, rest, rfl, rfl, hfront⟩
  cases hfront with
  | void => exact decode_void rest
  | type hfront => exact hfront.decode rest

/-- Spellings at the front of the same text are the same. -/
theorem SpelledBy.unique {type' : FieldType} {front' rest' : List Char} (h : type.SpelledBy front)
    (h' : type'.SpelledBy front') (heq : front ++ rest = front' ++ rest') :
    type = type' ∧ front = front' ∧ rest = rest' := by
  have hdecode := h.decode rest
  rw [heq, h'.decode rest'] at hdecode
  simp only [Except.ok.injEq, Option.some.injEq, Prod.mk.injEq] at hdecode
  obtain ⟨htype, hlength⟩ := hdecode
  have hcut := cutAt_append front rest
  rw [heq, ← hlength, cutAt_append, Except.ok.injEq] at hcut
  rw [hcut, List.append_cancel_right_eq] at heq
  exact ⟨htype.symm, heq, hcut.symm⟩

/-! ## Types one after the other -/

/-- No field descriptor is at the front of the text. -/
def Stuck (text : List Char) : Prop := ∀ type front rest, SpelledBy type front → text ≠ front ++ rest

/-- `V` is no type, and there is no array of it. -/
theorem stuck_void (depth : Nat) (rest : List Char) : Stuck (List.replicate depth '[' ++ 'V' :: rest) := by
  induction depth with
  | zero =>
    intro type front tail h heq
    cases h with
    | primitive type => exact type.letter_ne_void (List.cons.inj heq).1.symm
    | reference => cases heq
    | array => cases heq
  | succ depth ih =>
    intro type front tail h heq
    cases h with
    | primitive type => exact type.letter_ne_bracket (List.cons.inj heq).1.symm
    | reference => cases heq
    | array h => exact ih _ _ tail h (List.cons.inj heq).2

theorem stuck_closed (rest : List Char) : Stuck (')' :: rest) := by
  intro type front tail h heq
  cases h with
  | primitive type => cases type <;> cases heq
  | reference => cases heq
  | array => cases heq

variable {types : List FieldType} {parameters : List (List Char)}

theorem decodeAll_nil : decodeAll [] = .ok (some []) := by
  rw [decodeAll, if_pos rfl]

/-- A parameter is cut off where its spelling ends. -/
theorem decodeAll_append (h : type.SpelledBy front) (rest : List Char) :
    decodeAll (front ++ rest) = (decodeAll rest).map (·.map (type :: ·)) := by
  have hdecode := h.decode rest
  have hcut := cutAt_append front rest
  have hne : front ++ rest ≠ [] := by
    intro hnil
    rw [hnil, FieldType.decode] at hdecode
    cases hdecode
  rw [decodeAll, if_neg hne]
  split
  case h_1 herror => cases herror.symm.trans hdecode
  case h_2 hnone => cases hnone.symm.trans hdecode
  case h_3 hvoid => cases hvoid.symm.trans hdecode
  case h_4 hread =>
    cases hread.symm.trans hdecode
    split
    case h_1 herror => cases herror.symm.trans hcut
    case h_2 hok =>
      cases hok.symm.trans hcut
      rfl

/-- A text that does not begin with a parameter ends the reading. -/
theorem decodeAll_of_stuck (h : Stuck text) (hne : text ≠ []) : decodeAll text = .ok none := by
  obtain ⟨found, hfound⟩ := exists_decode text
  rw [decodeAll, if_neg hne]
  split
  case h_1 herror => cases herror.symm.trans hfound
  case h_2 => rfl
  case h_3 => rfl
  case h_4 hread =>
    obtain ⟨front, rest, htext, -, ⟨⟩ | hfront⟩ := exists_of_decode hread
    exact absurd htext (h _ _ _ hfront)

/-- A text is taken apart into parameters and what follows them. -/
theorem exists_spellings (text : List Char) : ∃ types parameters rest, List.Forall₂ SpelledBy types parameters ∧
    text = parameters.flatten ++ rest ∧ Stuck rest := by
  induction hn : text.length using Nat.strong_induction_on generalizing text with
  | _ n ih =>
    subst hn
    by_cases hstuck : Stuck text
    · exact ⟨[], [], text, .nil, rfl, hstuck⟩
    · simp only [Stuck, not_forall, not_not] at hstuck
      obtain ⟨type, front, rest, hfront, rfl⟩ := hstuck
      have hpos : 0 < front.length := by
        cases hfront <;> exact Nat.succ_pos _
      have hlt : rest.length < (front ++ rest).length := by
        rw [List.length_append]
        omega
      obtain ⟨types, parameters, last, hparameters, rfl, hlast⟩ := ih _ hlt rest rfl
      exact ⟨type :: types, front :: parameters, last, .cons hfront hparameters, by simp, hlast⟩

theorem decodeAll_flatten (h : List.Forall₂ SpelledBy types parameters) (rest : List Char) :
    decodeAll (parameters.flatten ++ rest) = (decodeAll rest).map (·.map (types ++ ·)) := by
  induction h with
  | nil =>
    rw [List.flatten_nil, List.nil_append]
    rcases decodeAll rest with e | (_ | others) <;> rfl
  | @cons type text types parameters hfirst _ ih =>
    rw [List.flatten_cons, List.append_assoc, decodeAll_append hfirst, ih]
    rcases decodeAll rest with e | (_ | others) <;> rfl

/-- **No cut goes wrong** in reading parameters: what is read is all of the text, or nothing. -/
theorem exists_decodeAll (text : List Char) : ∃ found, decodeAll text = .ok found := by
  obtain ⟨types, parameters, rest, hparameters, rfl, hstuck⟩ := exists_spellings text
  rw [decodeAll_flatten hparameters]
  by_cases hnil : rest = []
  · rw [hnil, decodeAll_nil]
    exact ⟨_, rfl⟩
  · rw [decodeAll_of_stuck hstuck hnil]
    exact ⟨_, rfl⟩

/-- **Parameters** are read just if the text consists of their spellings. -/
theorem decodeAll_eq_ok_some_iff : decodeAll text = .ok (some types) ↔
    ∃ parameters, text = parameters.flatten ∧ List.Forall₂ SpelledBy types parameters := by
  constructor
  · intro h
    obtain ⟨types', parameters, rest, hparameters, rfl, hstuck⟩ := exists_spellings text
    rw [decodeAll_flatten hparameters] at h
    by_cases hnil : rest = []
    · rw [hnil, decodeAll_nil] at h
      obtain rfl : types' ++ [] = types := Option.some.inj (Except.ok.inj h)
      exact ⟨parameters, by rw [hnil, List.append_nil], by rwa [List.append_nil]⟩
    · rw [decodeAll_of_stuck hstuck hnil] at h
      cases h
  · rintro ⟨parameters, rfl, hparameters⟩
    have hread := decodeAll_flatten hparameters []
    rw [decodeAll_nil, List.append_nil] at hread
    rw [hread]
    exact congrArg (fun types => Except.ok (some types)) (List.append_nil types)

/-- **Spellings are told apart.** There is one way at most to take spellings off the front of a text until
no further one follows. -/
theorem spellings_unique {types' : List FieldType} {parameters' : List (List Char)} {rest' : List Char}
    (h : List.Forall₂ SpelledBy types parameters) (h' : List.Forall₂ SpelledBy types' parameters')
    (hrest : Stuck rest) (hrest' : Stuck rest')
    (heq : parameters.flatten ++ rest = parameters'.flatten ++ rest') :
    types = types' ∧ parameters = parameters' ∧ rest = rest' := by
  induction h generalizing types' parameters' with
  | nil =>
    cases h' with
    | nil => exact ⟨rfl, rfl, heq⟩
    | cons hfirst' =>
      rw [List.flatten_cons, List.append_assoc] at heq
      exact absurd heq (hrest _ _ _ hfirst')
  | @cons type text types parameters hfirst _ ih =>
    rw [List.flatten_cons, List.append_assoc] at heq
    cases h' with
    | nil => exact absurd heq.symm (hrest' _ _ _ hfirst)
    | @cons type' text' types' parameters' hfirst' hothers' =>
      rw [List.flatten_cons, List.append_assoc] at heq
      obtain ⟨rfl, rfl, hothers⟩ := hfirst.unique hfirst' heq
      obtain ⟨rfl, rfl, rfl⟩ := ih hothers' hothers
      exact ⟨rfl, rfl, rfl⟩

end FieldType

/-! ## Methods -/

namespace MethodType
variable {type : MethodType} {result : Option FieldType} {text rest : List Char}

/-- A result that takes the whole text. -/
theorem decode_eq_ok_length_iff :
    FieldType.decode text = .ok (some (result, byteLength text)) ↔ ResultSpelledBy result text := by
  rw [FieldType.decode_eq_ok_some_iff]
  constructor
  · rintro ⟨front, rest, rfl, hlength, hfront⟩
    rw [byteLength_append, Nat.left_eq_add, byteLength_eq_zero_iff] at hlength
    rwa [hlength, List.append_nil]
  · intro h
    exact ⟨text, [], (List.append_nil text).symm, rfl, h⟩

theorem ResultSpelledBy.ne_nil (h : ResultSpelledBy result text) : text ≠ [] := by
  rcases h with _ | h
  · exact List.cons_ne_nil _ _
  · cases h <;> exact List.cons_ne_nil _ _

theorem exists_decodeParts (front last : List Char) : ∃ found, decodeParts front last = .ok found := by
  obtain ⟨parameters, hparameters⟩ := FieldType.exists_decodeAll front
  obtain ⟨result, hresult⟩ := FieldType.exists_decode last
  rw [decodeParts, hparameters, hresult]
  split
  · exact ⟨_, rfl⟩
  · cases parameters <;> cases result <;> exact ⟨_, rfl⟩

/-- Both texts are spellings. -/
theorem decodeParts_eq_ok_some_iff {front last : List Char} : decodeParts front last = .ok (some type) ↔
    FieldType.decodeAll front = .ok (some type.parameters) ∧ ResultSpelledBy type.result last ∧ '\n' ∉ last := by
  obtain ⟨parameters, hparameters⟩ := FieldType.exists_decodeAll front
  obtain ⟨result, hresult⟩ := FieldType.exists_decode last
  constructor
  · intro h
    rw [decodeParts, hparameters, hresult] at h
    split at h
    case isTrue => cases h
    case isFalse hlast =>
      cases parameters with
      | none => cases h
      | some parameters =>
        rcases result with _ | ⟨result, length⟩
        · cases h
        have hwhole : (if length = byteLength last then some (⟨parameters, result⟩ : MethodType) else none) =
            some type := Except.ok.inj h
        split at hwhole
        case isTrue hlength =>
          cases hwhole
          rw [hlength] at hresult
          exact ⟨hparameters, decode_eq_ok_length_iff.1 hresult, (not_or.1 hlast).2⟩
        case isFalse => cases hwhole
  · rintro ⟨hfront, hspelled, honeLine⟩
    rw [decodeParts, if_neg (not_or.2 ⟨hspelled.ne_nil, honeLine⟩), hfront, decode_eq_ok_length_iff.2 hspelled]
    exact congrArg Except.ok (if_pos rfl)

/-- **No cut goes wrong** in reading a descriptor. -/
theorem exists_decode (text : String) : ∃ found, decode text = .ok found := by
  unfold decode
  split
  · split
    · exact ⟨_, rfl⟩
    · exact exists_decodeParts _ _
  · exact ⟨_, rfl⟩

/-- What is read is the answer. -/
theorem decode_eq (text : String) : decode text = .ok (ofDescriptor? text) := by
  obtain ⟨found, hfound⟩ := exists_decode text
  rw [ofDescriptor?, hfound]

/-- **A method descriptor** is read just if the text is one. -/
theorem ofDescriptor?_eq_some_iff {text : String} :
    ofDescriptor? text = some type ↔ ∃ parameters result, type.SpelledBy text.toList parameters result := by
  have hdecode : ofDescriptor? text = some type ↔ decode text = .ok (some type) := by
    rw [decode_eq, Except.ok.injEq]
  rw [hdecode]
  constructor
  · intro h
    unfold decode at h
    split at h
    case h_2 => cases h
    case h_1 inner htext =>
      split at h
      case h_1 => cases h
      case h_2 d last hdrop =>
        obtain ⟨hfront, hlast, honeLine⟩ := decodeParts_eq_ok_some_iff.1 h
        obtain ⟨parameters, hflatten, hparameters⟩ := FieldType.decodeAll_eq_ok_some_iff.1 hfront
        have hclosed : ∀ parameter ∈ parameters, ')' ∉ parameter := by
          intro parameter hmem hbracket
          have hall := not_mem_takeWhile_ne ')' inner
          rw [hflatten] at hall
          exact hall (List.mem_flatten_of_mem hmem hbracket)
        refine ⟨parameters, last, ?_, hparameters, hclosed, hlast, honeLine⟩
        rw [htext, eq_append_of_dropWhile_ne hdrop, hflatten]
  · rintro ⟨parameters, last, htext, hparameters, hclosed, hlast, honeLine⟩
    have hflatten : ')' ∉ parameters.flatten := by
      intro hmem
      obtain ⟨parameter, hparameter, hbracket⟩ := List.mem_flatten.1 hmem
      exact hclosed parameter hparameter hbracket
    have htypes : FieldType.decodeAll parameters.flatten = .ok (some type.parameters) :=
      FieldType.decodeAll_eq_ok_some_iff.2 ⟨parameters, rfl, hparameters⟩
    unfold decode
    simp only [htext, dropWhile_ne_append hflatten, takeWhile_ne_append hflatten]
    exact decodeParts_eq_ok_some_iff.2 ⟨htypes, hlast, honeLine⟩

/-- A text is put together in one way at most, and is a descriptor of one type at most. -/
theorem SpelledBy.unique {type' : MethodType} {parameters parameters' : List (List Char)} {last last' : List Char}
    (h : type.SpelledBy text parameters last) (h' : type'.SpelledBy text parameters' last') :
    type = type' ∧ parameters = parameters' ∧ last = last' := by
  have heq : parameters.flatten ++ ')' :: last = parameters'.flatten ++ ')' :: last' :=
    (List.cons.inj (h.parts.symm.trans h'.parts)).2
  obtain ⟨htypes, hparameters, hlast⟩ := FieldType.spellings_unique h.takes h'.takes (FieldType.stuck_closed _)
    (FieldType.stuck_closed _) heq
  obtain rfl := (List.cons.inj hlast).2
  have hread := decode_eq_ok_length_iff.2 h.gives
  rw [decode_eq_ok_length_iff.2 h'.gives, Except.ok.injEq, Option.some.injEq, Prod.mk.injEq] at hread
  obtain ⟨types, shape⟩ := type
  obtain ⟨types', shape'⟩ := type'
  obtain rfl : types = types' := htypes
  obtain rfl : shape' = shape := hread.1
  exact ⟨rfl, hparameters, rfl⟩

/-- Where no further parameter follows, the parameters of a descriptor end, and its result is left. -/
theorem result_of_ofDescriptor? {text : String} {types : List FieldType} {parameters : List (List Char)}
    (h : ofDescriptor? text = some type) (hparameters : List.Forall₂ FieldType.SpelledBy types parameters)
    (hstuck : FieldType.Stuck rest) (htext : text.toList = '(' :: (parameters.flatten ++ rest)) :
    ∃ last, rest = ')' :: last ∧ ResultSpelledBy type.result last := by
  obtain ⟨parameters', last, hspelled⟩ := ofDescriptor?_eq_some_iff.1 h
  have heq := (List.cons.inj (htext.symm.trans hspelled.parts)).2
  obtain ⟨-, -, hrest⟩ := FieldType.spellings_unique hparameters hspelled.takes hstuck (FieldType.stuck_closed _) heq
  exact ⟨last, hrest, hspelled.gives⟩

/-- After some parameters comes what is neither a further one nor the end of them. -/
theorem ofDescriptor?_of_stuck {text : String} {types : List FieldType} {parameters : List (List Char)}
    (hparameters : List.Forall₂ FieldType.SpelledBy types parameters) (hstuck : FieldType.Stuck rest)
    (hclosed : rest.head? ≠ some ')') (htext : text.toList = '(' :: (parameters.flatten ++ rest)) :
    ofDescriptor? text = none := by
  by_contra hsome
  obtain ⟨type, hsome⟩ := Option.ne_none_iff_exists'.1 hsome
  obtain ⟨last, rfl, -⟩ := result_of_ofDescriptor? hsome hparameters hstuck htext
  exact hclosed rfl

/-- After the parameters comes what is no result. -/
theorem ofDescriptor?_of_no_result {text : String} {types : List FieldType} {parameters : List (List Char)}
    (hparameters : List.Forall₂ FieldType.SpelledBy types parameters)
    (hresult : ∀ result, ¬ResultSpelledBy result rest)
    (htext : text.toList = '(' :: (parameters.flatten ++ ')' :: rest)) : ofDescriptor? text = none := by
  by_contra hsome
  obtain ⟨type, hsome⟩ := Option.ne_none_iff_exists'.1 hsome
  obtain ⟨last, hlast, hspelled⟩ := result_of_ofDescriptor? hsome hparameters (FieldType.stuck_closed _) htext
  obtain rfl := (List.cons.inj hlast).2
  exact hresult _ hspelled

theorem not_resultSpelledBy_array_void (depth : Nat) (rest : List Char) :
    ¬ResultSpelledBy result (List.replicate (depth + 1) '[' ++ 'V' :: rest) := by
  intro h
  cases h with
  | type h => exact FieldType.stuck_void (depth + 1) rest _ _ [] h (List.append_nil _).symm

/-- The spelling of a result is not the beginning of another one. -/
theorem ResultSpelledBy.eq_nil {result' : Option FieldType} {more : List Char} (h : ResultSpelledBy result text)
    (h' : ResultSpelledBy result' (text ++ more)) : more = [] := by
  have hread : FieldType.decode (text ++ more) = .ok (some (result, byteLength text)) :=
    FieldType.decode_eq_ok_some_iff.2 ⟨text, more, rfl, rfl, h⟩
  rw [decode_eq_ok_length_iff.2 h', Except.ok.injEq, Option.some.injEq, Prod.mk.injEq, byteLength_append,
    Nat.add_eq_left, byteLength_eq_zero_iff] at hread
  exact hread.2

/-- A descriptor is not the beginning of another one. -/
theorem ofDescriptor?_append {text more : String} (h : ofDescriptor? text = some type) (hmore : more ≠ "") :
    ofDescriptor? (text ++ more) = none := by
  obtain ⟨parameters, last, hspelled⟩ := ofDescriptor?_eq_some_iff.1 h
  have htext : (text ++ more).toList = '(' :: (parameters.flatten ++ ')' :: (last ++ more.toList)) := by
    rw [String.toList_append, hspelled.parts]
    simp
  refine ofDescriptor?_of_no_result hspelled.takes (fun result hresult => ?_) htext
  exact hmore (String.toList_eq_nil_iff.1 (hspelled.gives.eq_nil hresult))

end MethodType

/-! ## The type at the front of a text -/

/-- What is read is the answer. -/
theorem decode_eq_leadingType? (text : String) : FieldType.decode text.toList = .ok (leadingType? text) := by
  obtain ⟨found, hfound⟩ := FieldType.exists_decode text.toList
  rw [leadingType?, hfound]

/-- **The type at the front of a text**, and where its spelling ends. -/
theorem leadingType?_eq_some_iff {text : String} {result : Option FieldType} {size : Nat} :
    leadingType? text = some (result, size) ↔
      ∃ front rest, text = front ++ rest ∧ front.utf8ByteSize = size ∧
        MethodType.ResultSpelledBy result front.toList := by
  have hdecode : leadingType? text = some (result, size) ↔ FieldType.decode text.toList = .ok (some (result, size)) := by
    rw [decode_eq_leadingType?, Except.ok.injEq]
  rw [hdecode, FieldType.decode_eq_ok_some_iff]
  constructor
  · rintro ⟨front, rest, htext, rfl, hspelled⟩
    refine ⟨String.ofList front, String.ofList rest, ?_, ?_, by rwa [String.toList_ofList]⟩
    · rw [← String.ofList_append, ← htext, String.ofList_toList]
    · rw [← byteLength_toList, String.toList_ofList]
  · rintro ⟨front, rest, rfl, rfl, hspelled⟩
    exact ⟨front.toList, rest.toList, String.toList_append, byteLength_toList front, hspelled⟩

/-! ## What the readers promise -/

/-- What the readers of descriptors make of a text. -/
structure ReadsGrammar (text : String) : Prop where
  /-- The text is never cut within a character or behind its end. -/
  cuts : MethodType.decode text = .ok (MethodType.ofDescriptor? text)
  leadingCuts : FieldType.decode text.toList = .ok (leadingType? text)
  /-- The texts that are read are the descriptors. -/
  accepts : ∀ type, MethodType.ofDescriptor? text = some type ↔
    ∃ parameters result, type.SpelledBy text.toList parameters result
  /-- There is one way to read a descriptor. -/
  unique : ∀ type type' parameters parameters' result result', MethodType.SpelledBy type text.toList parameters result →
    MethodType.SpelledBy type' text.toList parameters' result' →
      type = type' ∧ parameters = parameters' ∧ result = result'
  /-- After any parameters, `V` and arrays of it are no further parameter. -/
  noVoidParameter : ∀ types parameters depth rest, List.Forall₂ FieldType.SpelledBy types parameters →
    text.toList = '(' :: (parameters.flatten ++ (List.replicate depth '[' ++ 'V' :: rest)) →
      MethodType.ofDescriptor? text = none
  /-- An array of `V` is no result. -/
  noVoidArray : ∀ types parameters depth rest, List.Forall₂ FieldType.SpelledBy types parameters →
    text.toList = '(' :: (parameters.flatten ++ ')' :: (List.replicate (depth + 1) '[' ++ 'V' :: rest)) →
      MethodType.ofDescriptor? text = none
  /-- Nothing may follow a descriptor. -/
  nothingFollows : ∀ type more, MethodType.ofDescriptor? text = some type → more ≠ "" →
    MethodType.ofDescriptor? (text ++ more) = none
  /-- The type at the front is read off its spelling, which is so many bytes long. -/
  leading : ∀ result size, leadingType? text = some (result, size) ↔
    ∃ front rest, text = front ++ rest ∧ front.utf8ByteSize = size ∧ MethodType.ResultSpelledBy result front.toList
  /-- These bytes alone decide, and the text can be cut behind them. -/
  leadingAlone : ∀ result size, leadingType? text = some (result, size) → String.Pos.Raw.IsValid text ⟨size⟩ ∧
    ∃ front rest, text = front ++ rest ∧ front.utf8ByteSize = size ∧ cutAt size text.toList = .ok rest.toList ∧
      ∀ more, leadingType? (front ++ more) = some (result, size)

/-- **Descriptors are read by their grammar.** -/
theorem descriptor_grammar (text : String) : ReadsGrammar text where
  cuts := MethodType.decode_eq text
  leadingCuts := decode_eq_leadingType? text
  accepts _ := MethodType.ofDescriptor?_eq_some_iff
  unique _ _ _ _ _ _ h h' := h.unique h'
  noVoidParameter types parameters depth rest hparameters htext := by
    have hstuck := FieldType.stuck_void depth rest
    refine MethodType.ofDescriptor?_of_stuck hparameters hstuck ?_ htext
    cases depth with
    | zero => simp
    | succ depth => simp [List.replicate_succ]
  noVoidArray types parameters depth rest hparameters htext := by
    refine MethodType.ofDescriptor?_of_no_result hparameters (fun result => ?_) htext
    exact MethodType.not_resultSpelledBy_array_void depth rest
  nothingFollows _ _ h hmore := MethodType.ofDescriptor?_append h hmore
  leading _ _ := leadingType?_eq_some_iff
  leadingAlone result size h := by
    obtain ⟨front, rest, rfl, rfl, hspelled⟩ := leadingType?_eq_some_iff.1 h
    refine ⟨String.Pos.Raw.isValid_iff_exists_append.2 ⟨front, rest, rfl, rfl⟩, front, rest, rfl, rfl, ?_,
      fun more => leadingType?_eq_some_iff.2 ⟨front, more, rfl, rfl, hspelled⟩⟩
    rw [String.toList_append, ← byteLength_toList]
    exact cutAt_append front.toList rest.toList

/-- A bracket in the class name of a result, and a line feed in that of a parameter. -/
theorem descriptor_grammar_brackets :
    MethodType.ofDescriptor? "([[ILa(\n;Z)[L);" =
        some ⟨[.array (.array (.primitive .int)), .reference, .primitive .boolean], some (.array .reference)⟩ ∧
      MethodType.ofDescriptor? "([[ILa(\n;Z)[L);V" = none ∧
      leadingType? "Lé;I" = some (some .reference, 4) ∧ leadingType? "Lé;" = some (some .reference, 4) := by
  have hgrammar := descriptor_grammar "([[ILa(\n;Z)[L);"
  have hread : MethodType.ofDescriptor? "([[ILa(\n;Z)[L);" =
      some ⟨[.array (.array (.primitive .int)), .reference, .primitive .boolean], some (.array .reference)⟩ := by
    refine (hgrammar.accepts _).2 ⟨[['[', '[', 'I'], ['L', 'a', '(', '\n', ';'], ['Z']], ['[', 'L', ')', ';'], ?_⟩
    have hint : FieldType.SpelledBy (.primitive .int) ['I'] := .primitive .int
    have hname : FieldType.SpelledBy .reference ['L', 'a', '(', '\n', ';'] :=
      @FieldType.SpelledBy.reference ['a', '(', '\n'] (by decide) (by decide)
    have hbracket : FieldType.SpelledBy .reference ['L', ')', ';'] :=
      @FieldType.SpelledBy.reference [')'] (by decide) (by decide)
    exact ⟨by decide +kernel, .cons hint.array.array (.cons hname (.cons (.primitive .boolean) .nil)), by decide,
      .type hbracket.array, by decide⟩
  have haccent : FieldType.SpelledBy .reference ['L', 'é', ';'] :=
    @FieldType.SpelledBy.reference ['é'] (by decide) (by decide)
  have hleading : leadingType? "Lé;I" = some (some .reference, 4) :=
    ((descriptor_grammar "Lé;I").leading _ _).2 ⟨"Lé;", "I", by decide, by decide, .type haccent⟩
  exact ⟨hread, hgrammar.nothingFollows _ "V" hread (by decide), hleading,
    ((descriptor_grammar "Lé;").leading _ _).2 ⟨"Lé;", "", by decide, by decide, .type haccent⟩⟩

end Jvm
