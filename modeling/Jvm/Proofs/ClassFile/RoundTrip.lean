import Jvm.ClassFile.Parser
import Jvm.Proofs.ClassFile.Writer

/-!
# Reading back what was written

`Reads r bytes a` says that the reader `r` takes exactly `bytes` off any input that starts with them,
and gives `a`. Readers follow the `do` blocks: one rule for each elementary reader, and `bind` puts
them together. Attributes are read by induction on the depth that the reader allows, which the number
of bytes bounds.

Main theorem `parse_write`: the parser finds what was written.
-/

namespace Jvm

open Bytes Reader

/-- The reader takes `bytes` off the front of its input and gives `a`. -/
def Reads {α : Type} (r : Reader α) (bytes : Bytes) (a : α) : Prop :=
  ∀ rest, r (bytes ++ rest) = .ok (a, rest)

namespace Reads
variable {α β : Type} {r : Reader α} {a : α} {bytes bytes' : Bytes}

theorem pure (a : α) : Reads (Pure.pure a) [] a := fun _ => rfl

theorem bind {k : α → Reader β} {b : β} (h : Reads r bytes a) (hk : Reads (k a) bytes' b) :
    Reads (r >>= k) (bytes ++ bytes') b := by
  intro rest
  show (r (bytes ++ bytes' ++ rest) >>= fun p => k p.1 p.2) = _
  rw [List.append_assoc, h]
  exact hk rest

/-- The last part of a reader, whose result is wrapped up. -/
theorem map (f : α → β) (h : Reads r bytes a) : Reads (r >>= fun a => Pure.pure (f a)) bytes (f a) := by
  intro rest
  show (r (bytes ++ rest) >>= fun p => (Pure.pure (f p.1) : Reader β) p.2) = _
  rw [h]
  rfl

/-- The last two parts of a reader. -/
theorem map₂ {γ : Type} {r' : Reader β} {b : β} (f : α → β → γ) (h : Reads r bytes a)
    (h' : Reads r' bytes' b) :
    Reads (r >>= fun a => r' >>= fun b => Pure.pure (f a b)) (bytes ++ bytes') (f a b) :=
  h.bind (h'.map (f a))

end Reads

/-! ## Words -/

theorem reads_u8 (b : UInt8) : Reads u8 [b] b := fun _ => rfl

theorem reads_u16 (w : UInt16) : Reads u16 (ofWord16 w) w := by
  intro rest
  show Except.ok (word16 (.ofNat (w.toNat / 256)) (.ofNat (w.toNat % 256)), rest) = _
  rw [word16_ofWord16]

theorem reads_u32 (w : UInt32) : Reads u32 (ofWord32 w) w := by
  have hw : word32 (.ofNat (w.toNat / 65536)) (.ofNat (w.toNat % 65536)) = w := by
    have hlt := w.toNat_lt
    rw [word32, UInt16.toNat_ofNat', UInt16.toNat_ofNat', ← UInt32.toNat_inj, UInt32.toNat_ofNat']
    omega
  have h : Reads u32 (ofWord32 w) (word32 (.ofNat (w.toNat / 65536)) (.ofNat (w.toNat % 65536))) :=
    (reads_u16 _).bind ((reads_u16 _).map _)
  rwa [hw] at h

theorem reads_u64 (w : UInt64) : Reads u64 (ofWord64 w) w := by
  have hw : word64 (.ofNat (w.toNat / 4294967296)) (.ofNat (w.toNat % 4294967296)) = w := by
    have hlt := w.toNat_lt
    rw [word64, UInt32.toNat_ofNat', UInt32.toNat_ofNat', ← UInt64.toNat_inj, UInt64.toNat_ofNat']
    omega
  have h : Reads u64 (ofWord64 w) (word64 (.ofNat (w.toNat / 4294967296)) (.ofNat (w.toNat % 4294967296))) :=
    (reads_u32 _).bind ((reads_u32 _).map _)
  rwa [hw] at h

theorem reads_take (bytes : Bytes) : Reads (Reader.take bytes.length) bytes bytes := by
  intro rest
  have h : (bytes ++ rest).hasAtLeast bytes.length = true := by
    rw [hasAtLeast_iff, List.length_append]
    omega
  rw [Reader.take, if_pos h, List.take_left, List.drop_left]

/-! ## Lists -/

section
variable {α β : Type} {item : Reader β} {write : α → Bytes} {value : α → β} {l : List α}

theorem reads_times (h : ∀ a ∈ l, Reads item (write a) (value a)) :
    Reads (times l.length item) (l.flatMap write) (l.map value) := by
  induction l with
  | nil => exact .pure []
  | cons a rest ih =>
    rw [List.flatMap_cons]
    have hrest := ih fun b hb => h b (List.mem_cons_of_mem a hb)
    exact (h a List.mem_cons_self).bind (hrest.map (value a :: ·))

theorem toNat_count {n : Nat} (h : n < 65536) : (UInt16.ofNat n).toNat = n := by
  rw [UInt16.toNat_ofNat', Nat.mod_eq_of_lt h]

theorem reads_counted (hlt : l.length < 65536) (h : ∀ a ∈ l, Reads item (write a) (value a)) :
    Reads (counted item) (ofList write l) (l.map value) := by
  refine (reads_u16 (.ofNat l.length)).bind ?_
  rw [toNat_count hlt]
  exact reads_times h

end

/-! ## Constants -/

namespace Constant

theorem reads_text {text : String} (h : (utf8 text).Fits) (index : UInt16) :
    Reads (do
        let bytes ← Reader.take (← u16).toNat
        match Text.ModifiedUtf8.decode bytes with
        | some text => return utf8 text
        | none => throw (.invalidUtf8 index))
      (ofCount (Text.ModifiedUtf8.encode text).length ++ Text.ModifiedUtf8.encode text) (utf8 text) := by
  refine (reads_u16 _).bind ?_
  rw [toNat_count h]
  intro rest
  show (Reader.take _ (Text.ModifiedUtf8.encode text ++ rest) >>= _) = _
  rw [reads_take]
  show (match Text.ModifiedUtf8.decode (Text.ModifiedUtf8.encode text) with
    | some text => (pure (utf8 text) : Reader Constant)
    | none => throw (ParseError.invalidUtf8 index)) rest = _
  rw [Text.ModifiedUtf8.decode_encode]
  rfl

/-- A constant is read back. -/
theorem reads_read {c : Constant} (h : c.Fits) (index : UInt16) : Reads (read index) c.write c := by
  cases c with
  | unusable => exact h.elim
  | utf8 text => exact (reads_u8 1).bind (reads_text h index)
  | integer value =>
    have hvalue := (reads_u32 value.toUInt32).map fun w => integer w.toInt32
    exact (reads_u8 3).bind hvalue
  | float bits => exact (reads_u8 4).bind ((reads_u32 bits).map float)
  | long value =>
    have hvalue := (reads_u64 value.toUInt64).map fun w => long w.toInt64
    exact (reads_u8 5).bind hvalue
  | double bits => exact (reads_u8 6).bind ((reads_u64 bits).map double)
  | classRef name => exact (reads_u8 7).bind ((reads_u16 name).map classRef)
  | string text => exact (reads_u8 8).bind ((reads_u16 text).map string)
  | fieldRef owner member =>
    exact (reads_u8 9).bind (.map₂ fieldRef (reads_u16 owner) (reads_u16 member))
  | methodRef owner member =>
    exact (reads_u8 10).bind (.map₂ methodRef (reads_u16 owner) (reads_u16 member))
  | interfaceMethodRef owner member =>
    exact (reads_u8 11).bind (.map₂ interfaceMethodRef (reads_u16 owner) (reads_u16 member))
  | nameAndType name descriptor =>
    exact (reads_u8 12).bind (.map₂ nameAndType (reads_u16 name) (reads_u16 descriptor))
  | methodHandle kind reference =>
    exact (reads_u8 15).bind (.map₂ methodHandle (reads_u8 kind) (reads_u16 reference))
  | methodType descriptor => exact (reads_u8 16).bind ((reads_u16 descriptor).map methodType)
  | dynamic bootstrap member =>
    exact (reads_u8 17).bind (.map₂ dynamic (reads_u16 bootstrap) (reads_u16 member))
  | invokeDynamic bootstrap member =>
    exact (reads_u8 18).bind (.map₂ invokeDynamic (reads_u16 bootstrap) (reads_u16 member))
  | module name => exact (reads_u8 19).bind ((reads_u16 name).map module)
  | package name => exact (reads_u8 20).bind ((reads_u16 name).map package)

theorem slots_le (c : Constant) : c.slots ≤ 2 := by
  rw [slots]
  split <;> decide

theorem slots_pos (c : Constant) : 0 < c.slots := by
  rw [slots]
  split <;> decide

theorem toNat_slots (c : Constant) : (UInt16.ofNat c.slots).toNat = c.slots :=
  toNat_count (Nat.lt_of_le_of_lt c.slots_le (by decide))

/-- A constant, and then those behind it. -/
theorem readSlots_of_lt {count index : UInt16} (h : index < count) : readSlots count index =
    read index >>= fun c => readSlots count (index + .ofNat c.slots) >>= fun l => pure (c.fill ++ l) := by
  funext input
  show _ = (read index input >>= fun p =>
    (readSlots count (index + .ofNat p.1.slots) p.2 >>= fun q => (pure (p.1.fill ++ q.1) : Reader _) q.2))
  rw [readSlots, if_pos h]
  split
  case h_1 e herror =>
    rw [herror]
    rfl
  case h_2 c rest hread =>
    conv_rhs => rw [hread]
    show _ = (readSlots count (index + .ofNat c.slots) rest >>= fun q => (pure (c.fill ++ q.1) : Reader _) q.2)
    rw [slots, fill]
    split
    case isTrue =>
      show _ = (readSlots count (index + 2) rest >>= _)
      cases readSlots count (index + 2) rest <;> rfl
    case isFalse =>
      show _ = (readSlots count (index + 1) rest >>= _)
      cases readSlots count (index + 1) rest <;> rfl

theorem readSlots_of_le {count index : UInt16} (h : count ≤ index) : readSlots count index = pure [] := by
  funext input
  rw [readSlots, if_neg (UInt16.not_lt.2 h)]
  rfl

/-- The counter does not run over: there are as many slots as are counted. -/
theorem reads_readSlots {constants : List Constant} (h : ∀ c ∈ constants, c.Fits) {count index : UInt16}
    (hcount : index.toNat + (constants.map slots).sum = count.toNat) :
    Reads (readSlots count index) (constants.flatMap write) (constants.flatMap fill) := by
  induction constants generalizing index with
  | nil =>
    rw [readSlots_of_le (UInt16.le_iff_toNat_le.2 hcount.ge)]
    exact .pure []
  | cons c rest ih =>
    rw [List.map_cons, List.sum_cons] at hcount
    have hlt := count.toNat_lt
    have hpos := c.slots_pos
    have hnext : (index + .ofNat c.slots).toNat = index.toNat + c.slots := by
      rw [UInt16.toNat_add, toNat_slots, Nat.mod_eq_of_lt (by omega)]
    have hrest := ih (fun b hb => h b (List.mem_cons_of_mem c hb)) (by rw [hnext]; omega)
    rw [readSlots_of_lt (UInt16.lt_iff_toNat_lt.2 (by omega))]
    exact (reads_read (h c List.mem_cons_self) index).bind (hrest.map (c.fill ++ ·))

theorem slotOf_length (constants : List Constant) :
    slotOf constants constants.length = (constants.map slots).sum + 1 := by
  rw [slotOf, List.take_length, Nat.add_comm]

theorem reads_readPool {constants : List Constant} (h : ∀ c ∈ constants, c.Fits)
    (hslots : slotOf constants constants.length < 65536) :
    Reads readPool (ofCount (slotOf constants constants.length) ++ constants.flatMap write)
      (pool constants) := by
  have hcount : (1 : UInt16).toNat + (constants.map slots).sum =
      (UInt16.ofNat (slotOf constants constants.length)).toNat := by
    rw [toNat_count hslots, slotOf_length, Nat.add_comm]
    rfl
  exact (reads_u16 _).bind ((reads_readSlots h hcount).map fun l => (unusable :: l).toArray)

end Constant

/-! ## Attributes -/

theorem reads_handler (range : ExceptionRange) :
    Reads ExceptionRange.read (Written.writeHandler range) range := by
  have hlast := Reads.map₂ (ExceptionRange.mk range.startPc range.endPc) (reads_u16 range.handlerPc)
    (reads_u16 range.catchType)
  exact (reads_u16 range.startPc).bind ((reads_u16 range.endPc).bind hlast)

namespace AttributeTable

/-- Of the entries that are there already, those stay whose name does not come again. -/
theorem foldl_insert (l : List (String × Attribute)) (t : AttributeTable) :
    l.foldl (fun t (name, content) => t.insert name content) t =
      t.filter (fun entry => entry.1 ∉ l.map (·.1)) ++ Written.lastOfEach l := by
  induction l generalizing t with
  | nil =>
    have hall : t.filter (fun entry => entry.1 ∉ ([] : List String)) = t := List.filter_eq_self.2 (by simp)
    rw [List.map_nil, hall, Written.lastOfEach, List.append_nil, List.foldl_nil]
  | cons entry rest ih =>
    show rest.foldl _ (t.insert entry.1 entry.2) = _
    rw [ih, AttributeTable.insert, Written.lastOfEach]
    have hkept : (t.filter (fun e => e.1 ≠ entry.1)).filter (fun e => e.1 ∉ rest.map (·.1)) =
        t.filter (fun e => e.1 ∉ (entry :: rest).map (·.1)) := by
      rw [List.filter_filter]
      refine List.filter_congr fun e _ => ?_
      rw [List.map_cons, Bool.eq_iff_iff]
      simp only [Bool.and_eq_true, decide_eq_true_eq, List.mem_cons, not_or, ne_eq]
      exact and_comm
    rw [List.filter_append, hkept]
    by_cases hagain : entry.1 ∈ rest.map (·.1)
    · simp [hagain]
    · simp [hagain]

theorem ofList_eq (l : List (String × Attribute)) : ofList l = Written.lastOfEach l := by
  rw [ofList, foldl_insert]
  rfl

end AttributeTable

namespace Written
variable {pool : Array Constant}

theorem writeAttributes_eq (l : List Attribute) : writeAttributes l = l.flatMap Attribute.write := by
  induction l with
  | nil => rfl
  | cons a rest ih => rw [writeAttributes, ih, List.flatMap_cons]

theorem length_le_flatMap {α : Type} {write : α → Bytes} {l : List α} {a : α} (ha : a ∈ l) :
    (write a).length ≤ (l.flatMap write).length := by
  obtain ⟨before, after, rfl⟩ := List.append_of_mem ha
  rw [List.flatMap_append, List.flatMap_cons]
  simp only [List.length_append]
  omega

theorem entries_eq (l : List Attribute) :
    entries pool l = l.map fun a => (nameAt pool a.name, a.content pool) := by
  induction l with
  | nil => rfl
  | cons a rest ih => rw [entries, ih, List.map_cons]

theorem fits_of_mem {l : List Attribute} (h : AttributesFit pool l) : ∀ a ∈ l, a.Fits pool := by
  induction l with
  | nil => simp
  | cons a rest ih =>
    rw [AttributesFit] at h
    intro b hb
    rcases List.mem_cons.1 hb with rfl | hb
    · exact h.1
    · exact ih h.2 b hb

/-- An attribute, with the name that its slot holds and the content for that name. -/
theorem reads_entry {nested : Reader AttributeTable} {name : UInt16} {text : String}
    (hname : pool[name.toNat]? = some (.utf8 text)) (declared : UInt32) {bytes : Bytes}
    {content : Jvm.Attribute} (h : Reads (Jvm.Attribute.readContent nested text declared) bytes content) :
    Reads (do
        let name ← Jvm.Attribute.readName pool (← u16)
        let length ← u32
        return (name, ← Jvm.Attribute.readContent nested name length))
      (ofWord16 name ++ (ofWord32 declared ++ bytes)) (nameAt pool name, content) := by
  have htext : Reads (Jvm.Attribute.readName pool name) [] text := by
    rw [Jvm.Attribute.readName, hname]
    exact .pure text
  rw [nameAt, hname]
  refine (reads_u16 name).bind ?_
  rw [← List.nil_append (ofWord32 declared ++ bytes)]
  exact htext.bind ((reads_u32 declared).bind (h.map (Prod.mk text)))

theorem reads_content_code {nested : Reader AttributeTable} {declared : UInt32} {maxStack maxLocals : UInt16}
    {code : Bytes} {handlers : List ExceptionRange} {bytes : Bytes} {t : AttributeTable}
    (hcode : code.length < 4294967296) (hhandlers : handlers.length < 65536) (h : Reads nested bytes t) :
    Reads (Jvm.Attribute.readContent nested "Code" declared)
      (ofWord16 maxStack ++ (ofWord16 maxLocals ++ (ofWord32 (.ofNat code.length) ++
        (code ++ (ofList writeHandler handlers ++ bytes)))))
      (.code maxStack maxLocals code handlers t) := by
  have hlength : (UInt32.ofNat code.length).toNat = code.length := by
    rw [UInt32.toNat_ofNat', Nat.mod_eq_of_lt hcode]
  have hread := reads_counted hhandlers fun range _ => reads_handler (id range)
  rw [List.map_id] at hread
  rw [Jvm.Attribute.readContent, if_pos rfl]
  refine (reads_u16 maxStack).bind ((reads_u16 maxLocals).bind ((reads_u32 _).bind ?_))
  rw [hlength]
  exact (reads_take code).bind (hread.bind (h.map (Jvm.Attribute.code maxStack maxLocals code handlers)))

theorem reads_content_constantValue (nested : Reader AttributeTable) (declared : UInt32) (index : UInt16) :
    Reads (Jvm.Attribute.readContent nested "ConstantValue" declared) (ofWord16 index)
      (.constantValue index) :=
  (reads_u16 index).map Jvm.Attribute.constantValue

theorem reads_content_raw (nested : Reader AttributeTable) {name : String} (hcode : name ≠ "Code")
    (hvalue : name ≠ "ConstantValue") {bytes : Bytes} (hlt : bytes.length < 4294967296) :
    Reads (Jvm.Attribute.readContent nested name (.ofNat bytes.length)) bytes (.raw bytes) := by
  rw [Jvm.Attribute.readContent, if_neg hcode, if_neg hvalue, UInt32.toNat_ofNat', Nat.mod_eq_of_lt hlt]
  exact (reads_take bytes).map Jvm.Attribute.raw

/-- Attributes are read back at any depth that is more than the number of their bytes. -/
theorem reads_table (depth : Nat) {l : List Attribute} (hl : AttributesFit pool l) (hlt : l.length < 65536)
    (hdepth : (writeAttributes l).length < depth) :
    Reads (AttributeTable.read pool depth) (ofCount l.length ++ writeAttributes l) (table pool l) := by
  induction depth generalizing l with
  | zero => omega
  | succ depth ih =>
    rw [table, ← AttributeTable.ofList_eq, entries_eq, writeAttributes_eq]
    refine (reads_counted hlt fun a ha => ?_).map AttributeTable.ofList
    have hfits := fits_of_mem hl a ha
    have hle : a.write.length ≤ (l.flatMap Attribute.write).length := length_le_flatMap ha
    rw [writeAttributes_eq] at hdepth
    cases a with
    | code name declared maxStack maxLocals bytes handlers attributes =>
      rw [Attribute.Fits] at hfits
      obtain ⟨hname, hbytes, hhandlers, hcount, hnested⟩ := hfits
      rw [Attribute.write] at hle
      simp only [List.length_append] at hle
      rw [Attribute.write, Attribute.content]
      refine reads_entry hname declared (reads_content_code hbytes hhandlers (ih hnested hcount ?_))
      have htwo : 0 < (ofWord16 name).length := by simp [ofWord16]
      omega
    | constantValue name declared index =>
      rw [Attribute.Fits] at hfits
      rw [Attribute.write, Attribute.content]
      exact reads_entry hfits declared (reads_content_constantValue _ declared index)
    | raw name bytes =>
      rw [Attribute.Fits] at hfits
      obtain ⟨⟨text, hname, hcode, hvalue⟩, hbytes⟩ := hfits
      rw [Attribute.write, Attribute.content]
      exact reads_entry hname _ (reads_content_raw _ hcode hvalue hbytes)

/-! ## Members and class files -/

theorem Member.reads_read {m : Member} (h : m.Fits pool) {depth : Nat} (hdepth : m.write.length < depth) :
    Reads (Jvm.Member.read pool depth) m.write (m.member pool) := by
  have hbytes : (writeAttributes m.attributes).length < depth := by
    rw [write] at hdepth
    simp only [List.length_append] at hdepth
    omega
  exact (reads_u16 m.access).bind <| (reads_u16 m.name).bind <|
    .map₂ (Jvm.Member.mk m.access m.name) (reads_u16 m.descriptor) (reads_table depth h.2 h.1 hbytes)

theorem reads_members {l : List Member} (hlt : l.length < 65536) (h : ∀ m ∈ l, m.Fits pool) {depth : Nat}
    (hdepth : (ofList Member.write l).length < depth) :
    Reads (counted (Jvm.Member.read pool depth)) (ofList Member.write l) (l.map (Member.member pool)) := by
  refine reads_counted hlt fun m hm => Member.reads_read (h m hm) ?_
  have hle : m.write.length ≤ (l.flatMap Member.write).length := length_le_flatMap hm
  rw [ofList, List.length_append] at hdepth
  omega

theorem reads_readVersion (minor major : UInt16) :
    Reads Jvm.ClassFile.readVersion (ofWord32 0xcafebabe ++ (ofWord16 minor ++ ofWord16 major)) (minor, major) := by
  refine (reads_u32 0xcafebabe).bind ?_
  show Reads (u16 >>= _) _ _
  exact .map₂ Prod.mk (reads_u16 minor) (reads_u16 major)

/-- A class file is read back at any depth that is at least the number of its bytes. -/
theorem ClassFile.reads_read {s : ClassFile} (h : s.Fits) {depth : Nat} (hdepth : s.write.length ≤ depth) :
    Reads (Jvm.ClassFile.read depth) s.write s.file := by
  rw [write] at hdepth
  simp only [List.length_append] at hdepth
  have hmagic : 0 < (ofWord32 0xcafebabe).length := by decide
  have hinterfaces := reads_counted h.interfaces fun w _ => reads_u16 (id w)
  rw [List.map_id] at hinterfaces
  rw [write, ← List.append_assoc (ofWord16 s.minorVersion), ← List.append_assoc (ofWord32 0xcafebabe)]
  refine (reads_readVersion s.minorVersion s.majorVersion).bind ?_
  rw [← List.append_assoc]
  refine (Constant.reads_readPool h.constants h.slots).bind <| (reads_u16 s.access).bind <|
    (reads_u16 s.thisClass).bind <| (reads_u16 s.superClass).bind <| hinterfaces.bind ?_
  refine (reads_members h.fields h.eachField (by omega)).bind <|
    (reads_members h.methods h.eachMethod (by omega)).bind ?_
  exact (reads_table depth h.eachAttribute h.attributes (by omega)).map _

theorem ClassFile.parse_append {s : ClassFile} (h : s.Fits) (trailing : Bytes) :
    Jvm.ClassFile.parse (s.write ++ trailing) = .ok s.file := by
  have hdepth : s.write.length ≤ (s.write ++ trailing).length := by
    rw [List.length_append]
    exact Nat.le_add_right _ _
  rw [Jvm.ClassFile.parse, reads_read h hdepth]
  rfl

end Written

/-- **Parsing undoes writing**, whatever follows the file. Each constant is in the slot that the
format gives it, and the unusable slots are the first one and those after wide constants. In each
attribute table, here and in nested code, a name stands once, for the last attribute that has it. -/
theorem ClassFile.parse_write (s : Written.ClassFile) (h : s.Fits) (trailing : Bytes) :
    parse (s.write ++ trailing) = .ok s.file ∧
      s.file.constants.size = Constant.slotOf s.constants s.constants.length ∧
      (∀ k c, s.constants[k]? = some c → s.file.constants[Constant.slotOf s.constants k]? = some c) ∧
      (∀ i, s.file.constants[i]? = some .unusable ↔
        i = 0 ∨ ∃ k c, s.constants[k]? = some c ∧ c.isWide ∧ i = Constant.slotOf s.constants k + 1) ∧
      ∀ attributes, ((Written.table s.file.constants attributes).map (·.1)).Nodup ∧
        ∀ name, (Written.table s.file.constants attributes).get? name =
          (Written.entries s.file.constants attributes).reverse.lookup name :=
  ⟨Written.ClassFile.parse_append h trailing, Constant.size_pool s.constants, fun _ _ hk => Constant.pool_slotOf hk,
    Constant.pool_unusable_iff h.constants, fun _ =>
      ⟨Written.nodup_lastOfEach _, fun name => Written.lookup_lastOfEach _ name⟩⟩

namespace Written.ClassFile

/-- Code inside of code, a constant in two slots, and a name that is given twice. -/
def nestedCode : ClassFile where
  minorVersion := 0
  majorVersion := 52
  constants := [.utf8 "Code", .long (-1), .utf8 "Note"]
  access := 0x21
  thisClass := 0
  superClass := 0
  interfaces := [7]
  fields := []
  methods := [⟨9, 1, 4, [.code 1 3 1 2 [0xb1] [] [.code 1 0xffffffff 0 0 [] [⟨0, 1, 2, 3⟩] []]]⟩]
  attributes := [.raw 4 [1], .raw 4 [2, 3]]

theorem nestedCode_fits : nestedCode.Fits := by
  have hpool : Constant.pool nestedCode.constants =
      #[.unusable, .utf8 "Code", .long (-1), .unusable, .utf8 "Note"] := rfl
  constructor
  case constants =>
    intro c hc
    simp only [nestedCode, List.mem_cons, List.not_mem_nil, or_false] at hc
    obtain rfl | rfl | rfl := hc
    · exact (by decide : (Text.ModifiedUtf8.encode "Code").length < 65536)
    · exact trivial
    · exact (by decide : (Text.ModifiedUtf8.encode "Note").length < 65536)
  case eachField => simp [nestedCode]
  case eachMethod =>
    rw [hpool]
    simp [nestedCode, Member.Fits, AttributesFit, Attribute.Fits]
  case eachAttribute =>
    rw [hpool]
    simp [nestedCode, AttributesFit, Attribute.Fits]
  all_goals decide

end Written.ClassFile

theorem ClassFile.parse_nestedCode :
    Written.ClassFile.nestedCode.Fits ∧
      ClassFile.parse (Written.ClassFile.nestedCode.write ++ [0]) = .ok Written.ClassFile.nestedCode.file ∧
      Written.ClassFile.nestedCode.file.attributes = [("Note", .raw [2, 3])] :=
  ⟨Written.ClassFile.nestedCode_fits, (parse_write _ Written.ClassFile.nestedCode_fits [0]).1, rfl⟩

end Jvm
