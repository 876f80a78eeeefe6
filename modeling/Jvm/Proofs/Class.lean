import Jvm.Class
import Jvm.Proofs.ConstantPool
import Jvm.Proofs.Last
import Jvm.Proofs.Monad

/-!
# What class files declare

`Method.DeclaredBy` says what a member of a class file declares and `Method.DefectOf` what keeps it from
declaring anything; `Method.ofMember` decides between the two. From there it goes to all members of a
file, where the last of one name and descriptor counts and the first defect is reported, and to the file
(`Class.ofFile_outcome`).
-/

namespace Jvm

/-- The attributes have code for a method, with its stack size and number of locals. -/
def AttributeTable.HasCode (attributes : AttributeTable) (maxStack maxLocals : UInt16) (bytes : Bytes) : Prop :=
  ∃ handlers inner, attributes.get? "Code" = some (.code maxStack maxLocals bytes handlers inner)

/-- The name and the descriptor of a member. -/
structure Member.IsNamed (pool : ConstantPool) (member : Member) (name descriptor : String) : Prop where
  name : pool.Holds member.name name
  descriptor : pool.Holds member.descriptor descriptor

namespace Method

/-- Stack size, number of locals and code of a method with these attributes. -/
inductive Body (attributes : AttributeTable) : UInt16 → UInt16 → Option Code → Prop
  | code {maxStack maxLocals : UInt16} {bytes : Bytes} {code : Code}
      (hcode : attributes.HasCode maxStack maxLocals bytes) (hdecode : Code.decode bytes = .ok code) :
    Body attributes maxStack maxLocals (some code)
  | none (hcode : ∀ maxStack maxLocals bytes, ¬attributes.HasCode maxStack maxLocals bytes) :
    Body attributes 0 0 none

/-- The method is what the member declares. -/
structure DeclaredBy (pool : ConstantPool) (member : Member) (method : Method) : Prop where
  named : member.IsNamed pool method.name method.descriptor
  type : MethodType.ofDescriptor? method.descriptor = some method.type
  access : method.access = member.access
  body : Body member.attributes method.maxStack method.maxLocals method.code

/-- The member has what it takes to declare a method. -/
structure Declarable (pool : ConstantPool) (member : Member) : Prop where
  name : ∃ name, pool.Holds member.name name
  descriptor : ∃ descriptor type, pool.Holds member.descriptor descriptor ∧
    MethodType.ofDescriptor? descriptor = some type
  code : ∀ maxStack maxLocals bytes, member.attributes.HasCode maxStack maxLocals bytes →
    ∃ code, Code.decode bytes = .ok code

/-- The first thing wrong with a member of class `owner`. -/
inductive DefectOf (pool : ConstantPool) (owner : String) (member : Member) : Defect → Prop
  | name (h : ∀ name, ¬pool.Holds member.name name) :
    DefectOf pool owner member (.malformedReference member.name .utf8)
  | descriptorIndex {name : String} (hname : pool.Holds member.name name)
      (h : ∀ descriptor, ¬pool.Holds member.descriptor descriptor) :
    DefectOf pool owner member (.malformedReference member.descriptor .utf8)
  | descriptorText {name descriptor : String} (hnamed : member.IsNamed pool name descriptor)
      (h : MethodType.ofDescriptor? descriptor = none) :
    DefectOf pool owner member (.invalidDescriptor descriptor)
  | code {name descriptor : String} {type : MethodType} {maxStack maxLocals : UInt16} {bytes : Bytes}
      {cause : DecodeError} (hnamed : member.IsNamed pool name descriptor)
      (htype : MethodType.ofDescriptor? descriptor = some type)
      (hcode : member.attributes.HasCode maxStack maxLocals bytes) (h : Code.decode bytes = .error cause) :
    DefectOf pool owner member (.invalidCode owner name cause)

/-! ## One member -/

section
variable {pool : ConstantPool} {owner name : String} {member : Member} {attributes : AttributeTable}
  {maxStack maxLocals : UInt16} {code : Option Code} {method : Method} {d : Defect}

theorem readBody_of_hasCode {bytes : Bytes} (h : attributes.HasCode maxStack maxLocals bytes) :
    readBody owner name attributes =
      match Code.decode bytes with
      | .ok code => .ok (maxStack, maxLocals, some code)
      | .error cause => .error (.invalidCode owner name cause) := by
  obtain ⟨handlers, inner, hget⟩ := h
  cases hdecode : Code.decode bytes <;> simp only [readBody, hget, hdecode]

theorem readBody_of_no_code (h : ∀ maxStack maxLocals bytes, ¬attributes.HasCode maxStack maxLocals bytes) :
    readBody owner name attributes = .ok (0, 0, none) := by
  unfold readBody
  split
  · rename_i maxStack maxLocals bytes handlers inner hget
    exact absurd ⟨handlers, inner, hget⟩ (h maxStack maxLocals bytes)
  · rfl

theorem readBody_eq_ok_iff :
    readBody owner name attributes = .ok (maxStack, maxLocals, code) ↔ Body attributes maxStack maxLocals code := by
  constructor
  · intro h
    by_cases hcode : ∃ maxStack maxLocals bytes, attributes.HasCode maxStack maxLocals bytes
    · obtain ⟨maxStack, maxLocals, bytes, hcode⟩ := hcode
      rw [readBody_of_hasCode hcode] at h
      split at h
      · rename_i hdecode
        cases h
        exact .code hcode hdecode
      · cases h
    · push Not at hcode
      rw [readBody_of_no_code hcode] at h
      cases h
      exact .none hcode
  · intro h
    cases h with
    | code hcode hdecode => rw [readBody_of_hasCode hcode, hdecode]
    | none hcode => exact readBody_of_no_code hcode

theorem readBody_eq_error_iff : readBody owner name attributes = .error d ↔
    ∃ maxStack maxLocals bytes cause, attributes.HasCode maxStack maxLocals bytes ∧
      Code.decode bytes = .error cause ∧ d = .invalidCode owner name cause := by
  constructor
  · intro h
    by_cases hcode : ∃ maxStack maxLocals bytes, attributes.HasCode maxStack maxLocals bytes
    · obtain ⟨maxStack, maxLocals, bytes, hcode⟩ := hcode
      rw [readBody_of_hasCode hcode] at h
      split at h
      · cases h
      · rename_i cause hdecode
        cases h
        exact ⟨maxStack, maxLocals, bytes, cause, hcode, hdecode, rfl⟩
    · push Not at hcode
      rw [readBody_of_no_code hcode] at h
      cases h
  · rintro ⟨maxStack, maxLocals, bytes, cause, hcode, hdecode, rfl⟩
    rw [readBody_of_hasCode hcode, hdecode]

theorem ofMember_eq_ok_iff : ofMember pool owner member = .ok method ↔ method.DeclaredBy pool member := by
  constructor
  · intro h
    obtain ⟨name, hname, h⟩ := exists_of_bind_ok h
    obtain ⟨descriptor, hdescriptor, h⟩ := exists_of_bind_ok h
    have hnamed : member.IsNamed pool name descriptor :=
      ⟨ConstantPool.utf8_eq_ok_iff.1 hname, ConstantPool.utf8_eq_ok_iff.1 hdescriptor⟩
    cases htype : MethodType.ofDescriptor? descriptor with
    | none =>
      rw [htype] at h
      cases h
    | some type =>
      rw [htype] at h
      obtain ⟨⟨maxStack, maxLocals, code⟩, hbody, h⟩ := exists_of_bind_ok h
      cases h
      exact ⟨hnamed, htype, rfl, readBody_eq_ok_iff.1 hbody⟩
  · intro h
    rw [ofMember, ConstantPool.utf8_eq_ok_iff.2 h.named.name]
    simp only [bind, Except.bind]
    rw [ConstantPool.utf8_eq_ok_iff.2 h.named.descriptor]
    simp only [h.type]
    rw [readBody_eq_ok_iff.2 h.body]
    simp only [pure, Except.pure, ← h.access]

theorem ofMember_eq_error_iff : ofMember pool owner member = .error d ↔ DefectOf pool owner member d := by
  constructor
  · intro h
    rcases error_of_bind_error h with hname | ⟨name, hname, h⟩
    · obtain ⟨hnone, rfl⟩ := ConstantPool.utf8_eq_error_iff.1 hname
      exact .name hnone
    rcases error_of_bind_error h with hdescriptor | ⟨descriptor, hdescriptor, h⟩
    · obtain ⟨hnone, rfl⟩ := ConstantPool.utf8_eq_error_iff.1 hdescriptor
      exact .descriptorIndex (ConstantPool.utf8_eq_ok_iff.1 hname) hnone
    have hnamed : member.IsNamed pool name descriptor :=
      ⟨ConstantPool.utf8_eq_ok_iff.1 hname, ConstantPool.utf8_eq_ok_iff.1 hdescriptor⟩
    cases htype : MethodType.ofDescriptor? descriptor with
    | none =>
      rw [htype] at h
      cases h
      exact .descriptorText hnamed htype
    | some type =>
      rw [htype] at h
      rcases error_of_bind_error h with hbody | ⟨body, -, h⟩
      · obtain ⟨maxStack, maxLocals, bytes, cause, hcode, hdecode, rfl⟩ := readBody_eq_error_iff.1 hbody
        exact .code hnamed htype hcode hdecode
      · cases h
  · intro h
    rw [ofMember]
    cases h with
    | name h =>
      rw [ConstantPool.utf8_eq_error_iff.2 ⟨h, rfl⟩]
      rfl
    | descriptorIndex hname h =>
      rw [ConstantPool.utf8_eq_ok_iff.2 hname]
      simp only [bind, Except.bind]
      rw [ConstantPool.utf8_eq_error_iff.2 ⟨h, rfl⟩]
    | descriptorText hnamed h =>
      rw [ConstantPool.utf8_eq_ok_iff.2 hnamed.name]
      simp only [bind, Except.bind]
      rw [ConstantPool.utf8_eq_ok_iff.2 hnamed.descriptor]
      simp only [h]
      rfl
    | code hnamed htype hcode h =>
      rw [ConstantPool.utf8_eq_ok_iff.2 hnamed.name]
      simp only [bind, Except.bind]
      rw [ConstantPool.utf8_eq_ok_iff.2 hnamed.descriptor]
      simp only [htype]
      rw [readBody_eq_error_iff.2 ⟨_, _, _, _, hcode, h, rfl⟩]

theorem Body.decodes (h : Body attributes maxStack maxLocals code) {stack locals : UInt16} {bytes : Bytes}
    (hcode : attributes.HasCode stack locals bytes) :
    ∃ decoded, Code.decode bytes = .ok decoded ∧ code = some decoded := by
  cases h with
  | none h => exact absurd hcode (h stack locals bytes)
  | code hcode' hdecode =>
    obtain ⟨handlers, inner, hget⟩ := hcode
    obtain ⟨handlers', inner', hget'⟩ := hcode'
    rw [hget] at hget'
    cases hget'
    exact ⟨_, hdecode, rfl⟩

theorem declarable_iff : Declarable pool member ↔ ∃ method : Method, method.DeclaredBy pool member := by
  constructor
  · rintro ⟨⟨name, hname⟩, ⟨descriptor, type, hdescriptor, htype⟩, hcode⟩
    cases hmember : ofMember pool "" member with
    | ok method => exact ⟨method, ofMember_eq_ok_iff.1 hmember⟩
    | error d =>
      cases ofMember_eq_error_iff.1 hmember with
      | name h => exact absurd hname (h name)
      | descriptorIndex _ h => exact absurd hdescriptor (h descriptor)
      | descriptorText hnamed h =>
        rw [hnamed.descriptor.unique hdescriptor, htype] at h
        cases h
      | code _ _ hbytes h =>
        obtain ⟨code, hdecode⟩ := hcode _ _ _ hbytes
        rw [hdecode] at h
        cases h
  · rintro ⟨method, hnamed, htype, -, hbody⟩
    refine ⟨⟨_, hnamed.name⟩, ⟨_, _, hnamed.descriptor, htype⟩, fun _ _ _ hcode => ?_⟩
    obtain ⟨decoded, hdecode, -⟩ := hbody.decodes hcode
    exact ⟨decoded, hdecode⟩

end

theorem isNamed_iff {method : Method} {name descriptor : String} :
    method.isNamed name descriptor = true ↔ method.name = name ∧ method.descriptor = descriptor := by
  rw [isNamed, Bool.and_eq_true, beq_iff_eq, beq_iff_eq]

/-- A method has the names of the member that declares it. -/
theorem DeclaredBy.isNamed_iff {pool : ConstantPool} {member : Member} {method : Method} {name descriptor : String}
    (h : method.DeclaredBy pool member) :
    method.isNamed name descriptor = true ↔ member.IsNamed pool name descriptor := by
  rw [Method.isNamed_iff]
  constructor
  · rintro ⟨rfl, rfl⟩
    exact h.named
  · intro hnamed
    exact ⟨h.named.name.unique hnamed.name, h.named.descriptor.unique hnamed.descriptor⟩

end Method

/-! ## All members -/

section
variable {pool : ConstantPool} {owner name descriptor : String} {members : List Member} {member : Member}
  {method : Method} {table : MethodTable} {d : Defect}

namespace MethodTable

theorem get?_insert (table : MethodTable) (method : Method) (name descriptor : String) :
    (table.insert method).get? name descriptor =
      if method.isNamed name descriptor = true then some method else table.get? name descriptor := by
  rw [get?, insert, List.find?_append, List.find?_singleton]
  by_cases hnamed : method.isNamed name descriptor = true
  · have hnone : (table.filter fun other => !other.isNamed method.name method.descriptor).find?
        (·.isNamed name descriptor) = none := by
      rw [List.find?_eq_none]
      intro other hother
      obtain ⟨rfl, rfl⟩ := Method.isNamed_iff.1 hnamed
      simpa using (List.mem_filter.1 hother).2
    rw [hnone, Option.none_or, if_pos hnamed, if_pos hnamed]
  · rw [if_neg hnamed, if_neg hnamed, Option.or_none, List.find?_filter, get?]
    congr 1
    funext other
    -- A method that is looked for is none of those that made way.
    cases hother : other.isNamed name descriptor with
    | false => simp
    | true =>
      have hstays : ¬other.isNamed method.name method.descriptor = true := by
        intro hgone
        obtain ⟨hname, hdescriptor⟩ := Method.isNamed_iff.1 hgone
        obtain ⟨rfl, rfl⟩ := Method.isNamed_iff.1 hother
        exact hnamed (Method.isNamed_iff.2 ⟨hname.symm, hdescriptor.symm⟩)
      simpa using hstays

/-- A method that came in through insertions. -/
theorem mem_of_mem_foldl_insert {methods : List Method} (h : method ∈ methods.foldl insert table) :
    method ∈ table ∨ method ∈ methods := by
  induction methods generalizing table with
  | nil => exact .inl h
  | cons first rest ih =>
    rcases ih h with hmem | hmem
    · rcases List.mem_append.1 hmem with hold | hnew
      · exact .inl (List.mem_filter.1 hold).1
      · exact .inr (List.mem_cons.2 (.inl (List.mem_singleton.1 hnew)))
    · exact .inr (List.mem_cons_of_mem first hmem)

theorem ofMembers_eq (pool : ConstantPool) (owner : String) (members : List Member) :
    ofMembers pool owner members =
      (members.mapM (Method.ofMember pool owner)).map fun methods => methods.foldl insert [] :=
  foldlM_eq_mapM insert members []

theorem exists_ofMembers_iff :
    (∃ table, ofMembers pool owner members = .ok table) ↔ ∀ member ∈ members, Method.Declarable pool member := by
  simp only [Method.declarable_iff, ← @Method.ofMember_eq_ok_iff pool owner, ← exists_mapM_ok_iff, ofMembers_eq]
  cases members.mapM (Method.ofMember pool owner) <;> simp [Except.map]

theorem ofMembers_eq_error_iff : ofMembers pool owner members = .error d ↔
    ∃ before member after, members = before ++ member :: after ∧
      (∀ earlier ∈ before, Method.Declarable pool earlier) ∧ Method.DefectOf pool owner member d := by
  simp only [Method.declarable_iff, ← @Method.ofMember_eq_ok_iff pool owner, ← Method.ofMember_eq_error_iff,
    ← mapM_eq_error_iff, ofMembers_eq]
  cases members.mapM (Method.ofMember pool owner) <;> simp [Except.map]

/-- Each method of the table is declared by a member. -/
theorem exists_member_of_mem (h : ofMembers pool owner members = .ok table) (hmem : method ∈ table) :
    ∃ member, method.DeclaredBy pool member := by
  rw [ofMembers_eq] at h
  obtain ⟨methods, hmethods, rfl⟩ := exists_of_map_ok h
  rcases mem_of_mem_foldl_insert hmem with hmem | hmem
  · exact absurd hmem List.not_mem_nil
  · obtain ⟨member, -, hmember⟩ := exists_of_mem_mapM hmethods hmem
    exact ⟨member, Method.ofMember_eq_ok_iff.1 hmember⟩

/-- The last member of a name and a descriptor declares the method that is found. -/
theorem get?_ofMembers (h : ofMembers pool owner members = .ok table) :
    table.get? name descriptor = some method ↔
      ∃ member, LastWith (·.IsNamed pool name descriptor) members member ∧ method.DeclaredBy pool member := by
  induction members using List.reverseRecOn generalizing table with
  | nil =>
    cases h
    constructor
    · intro h
      cases h
    · rintro ⟨member, hlast, -⟩
      exact absurd hlast.mem List.not_mem_nil
  | append_singleton members added ih =>
    rw [ofMembers, List.foldlM_append] at h
    obtain ⟨before, hbefore, h⟩ := exists_of_bind_ok h
    obtain ⟨next, hnext, h⟩ := exists_of_bind_ok h
    cases h
    obtain ⟨declared, hadded, hnext⟩ := exists_of_bind_ok hnext
    cases hnext
    have hdeclared := Method.ofMember_eq_ok_iff.1 hadded
    rw [get?_insert]
    simp only [lastWith_concat_iff]
    by_cases hnamed : added.IsNamed pool name descriptor
    · rw [if_pos (hdeclared.isNamed_iff.2 hnamed)]
      constructor
      · rintro ⟨⟩
        exact ⟨added, .inl ⟨hnamed, rfl⟩, hdeclared⟩
      · rintro ⟨member, (⟨-, rfl⟩ | ⟨hother, -⟩), hmethod⟩
        · rw [← Method.ofMember_eq_ok_iff, hadded] at hmethod
          cases hmethod
          rfl
        · exact absurd hnamed hother
    · rw [if_neg (mt hdeclared.isNamed_iff.1 hnamed), ih hbefore]
      simp only [hnamed, false_and, false_or, not_false_eq_true, true_and]

theorem exists_get?_ofMembers (h : ofMembers pool owner members = .ok table) :
    (∃ method, table.get? name descriptor = some method) ↔ ∃ member ∈ members, member.IsNamed pool name descriptor := by
  constructor
  · rintro ⟨method, hget⟩
    obtain ⟨member, hlast, -⟩ := (get?_ofMembers h).1 hget
    exact ⟨member, hlast.mem, hlast.has⟩
  · intro hnamed
    obtain ⟨member, hlast⟩ := exists_lastWith hnamed
    have hdeclarable := exists_ofMembers_iff.1 ⟨table, h⟩ member hlast.mem
    obtain ⟨method, hmethod⟩ := Method.declarable_iff.1 hdeclarable
    exact ⟨method, (get?_ofMembers h).2 ⟨member, hlast, hmethod⟩⟩

end MethodTable

end

/-! ## The file -/

namespace ClassFile

/-- The constants that the file's references lead through. -/
def pool (file : ClassFile) : ConstantPool := ⟨file.constants⟩

/-- The file has what it takes to declare a class. -/
structure Declarable (file : ClassFile) : Prop where
  thisClass : ∃ name, file.pool.NamesClass file.thisClass name
  superClass : file.superClass = 0 ∨ ∃ name, file.pool.NamesClass file.superClass name
  methods : ∀ member ∈ file.methods, Method.Declarable file.pool member

/-- The first thing wrong with the file, in the order in which it is read. -/
inductive FirstDefect (file : ClassFile) : Defect → Prop
  | thisClass {d : Defect} (h : file.pool.ClassDefect file.thisClass d) : FirstDefect file d
  | superClass {name : String} {d : Defect} (hname : file.pool.NamesClass file.thisClass name)
      (hsome : file.superClass ≠ 0) (h : file.pool.ClassDefect file.superClass d) : FirstDefect file d
  /-- Later members of the same name and descriptor do not make up for it. -/
  | method {name : String} {before after : List Member} {member : Member} {d : Defect}
      (hname : file.pool.NamesClass file.thisClass name)
      (hsuper : file.superClass = 0 ∨ ∃ name, file.pool.NamesClass file.superClass name)
      (hsplit : file.methods = before ++ member :: after)
      (hbefore : ∀ earlier ∈ before, Method.Declarable file.pool earlier)
      (h : Method.DefectOf file.pool name member d) : FirstDefect file d

end ClassFile

namespace Class

/-- The superclass that slot `index` stands for. -/
inductive SuperName (pool : ConstantPool) (index : UInt16) : Option String → Prop
  | none (h : index = 0) : SuperName pool index none
  | some {name : String} (hsome : index ≠ 0) (h : pool.NamesClass index name) : SuperName pool index (some name)

/-- The class is what the file declares. -/
structure DeclaredBy (c : Class) (file : ClassFile) : Prop where
  pool : c.pool = file.pool
  name : file.pool.NamesClass file.thisClass c.name
  superName : SuperName file.pool file.superClass c.superName
  /-- The class has methods of the names and descriptors that members have. -/
  found : ∀ name descriptor, (∃ method, c.method? name descriptor = some method) ↔
    ∃ member ∈ file.methods, member.IsNamed file.pool name descriptor
  /-- Of several members the last one declares the method. -/
  last : ∀ name descriptor method, c.method? name descriptor = some method ↔
    ∃ member, LastWith (·.IsNamed file.pool name descriptor) file.methods member ∧ method.DeclaredBy file.pool member

section
variable {pool : ConstantPool} {index : UInt16} {superName : Option String} {file : ClassFile} {c : Class} {d : Defect}

theorem readSuperName_eq_ok_iff : readSuperName pool index = .ok superName ↔ SuperName pool index superName := by
  unfold readSuperName
  constructor
  · intro h
    split at h
    · cases h
      exact .none ‹_›
    · rename_i hsome
      obtain ⟨name, hname, rfl⟩ := exists_of_map_ok h
      exact .some hsome (ConstantPool.className_eq_ok_iff.1 hname)
  · intro h
    cases h with
    | none h => rw [if_pos h]
    | some hsome h =>
      rw [if_neg hsome, ConstantPool.className_eq_ok_iff.2 h]
      rfl

theorem exists_readSuperName_iff :
    (∃ superName, readSuperName pool index = .ok superName) ↔ index = 0 ∨ ∃ name, pool.NamesClass index name := by
  simp only [readSuperName_eq_ok_iff]
  constructor
  · rintro ⟨superName, h⟩
    cases h with
    | none h => exact .inl h
    | some hsome h => exact .inr ⟨_, h⟩
  · intro h
    by_cases hzero : index = 0
    · exact ⟨_, .none hzero⟩
    · obtain ⟨name, hname⟩ := h.resolve_left hzero
      exact ⟨_, .some hzero hname⟩

theorem readSuperName_eq_error_iff :
    readSuperName pool index = .error d ↔ index ≠ 0 ∧ pool.ClassDefect index d := by
  rw [← ConstantPool.className_eq_error_iff, readSuperName]
  split
  case isTrue hzero => simp [hzero]
  case isFalse hsome => cases pool.className index <;> simp [Except.map, hsome]

/-- The steps of `ofFile`, with the pool as the file's own. -/
theorem ofFile_eq (file : ClassFile) : ofFile file = do
    let name ← file.pool.className file.thisClass
    let superName ← readSuperName file.pool file.superClass
    let methods ← MethodTable.ofMembers file.pool name file.methods
    return { name, superName, pool := file.pool, methods } := rfl

theorem exists_of_ofFile (h : ofFile file = .ok c) :
    file.pool.className file.thisClass = .ok c.name ∧ readSuperName file.pool file.superClass = .ok c.superName ∧
      MethodTable.ofMembers file.pool c.name file.methods = .ok c.methods ∧ c.pool = file.pool := by
  obtain ⟨name, hname, h⟩ := exists_of_bind_ok h
  obtain ⟨superName, hsuper, h⟩ := exists_of_bind_ok h
  obtain ⟨methods, hmethods, h⟩ := exists_of_bind_ok h
  cases h
  exact ⟨hname, hsuper, hmethods, rfl⟩

theorem declaredBy_of_ofFile (h : ofFile file = .ok c) : c.DeclaredBy file := by
  obtain ⟨hname, hsuper, hmethods, hpool⟩ := exists_of_ofFile h
  exact {
    pool := hpool
    name := ConstantPool.className_eq_ok_iff.1 hname
    superName := readSuperName_eq_ok_iff.1 hsuper
    found := fun _ _ => MethodTable.exists_get?_ofMembers hmethods
    last := fun _ _ _ => MethodTable.get?_ofMembers hmethods }

theorem exists_ofFile_iff : (∃ c, ofFile file = .ok c) ↔ file.Declarable := by
  constructor
  · rintro ⟨c, h⟩
    obtain ⟨hname, hsuper, hmethods, -⟩ := exists_of_ofFile h
    exact {
      thisClass := ⟨_, ConstantPool.className_eq_ok_iff.1 hname⟩
      superClass := exists_readSuperName_iff.1 ⟨_, hsuper⟩
      methods := MethodTable.exists_ofMembers_iff.1 ⟨_, hmethods⟩ }
  · rintro ⟨⟨name, hname⟩, hsuper, hmethods⟩
    obtain ⟨superName, hsuper⟩ := exists_readSuperName_iff.2 hsuper
    obtain ⟨methods, hmethods⟩ := MethodTable.exists_ofMembers_iff.2 hmethods
    refine ⟨⟨name, superName, file.pool, methods⟩, ?_⟩
    rw [ofFile_eq, ConstantPool.className_eq_ok_iff.2 hname]
    simp only [bind, Except.bind]
    rw [hsuper, hmethods]
    rfl

theorem ofFile_eq_error_iff : ofFile file = .error d ↔ file.FirstDefect d := by
  constructor
  · intro h
    rcases error_of_bind_error h with hname | ⟨name, hname, h⟩
    · exact .thisClass (ConstantPool.className_eq_error_iff.1 hname)
    replace hname := ConstantPool.className_eq_ok_iff.1 hname
    rcases error_of_bind_error h with hsuper | ⟨superName, hsuper, h⟩
    · obtain ⟨hsome, hsuper⟩ := readSuperName_eq_error_iff.1 hsuper
      exact .superClass hname hsome hsuper
    rcases error_of_bind_error h with hmethods | ⟨methods, -, h⟩
    · obtain ⟨before, member, after, hsplit, hbefore, hmember⟩ := MethodTable.ofMembers_eq_error_iff.1 hmethods
      exact .method hname (exists_readSuperName_iff.1 ⟨_, hsuper⟩) hsplit hbefore hmember
    · cases h
  · intro h
    rw [ofFile_eq]
    cases h with
    | thisClass h =>
      rw [ConstantPool.className_eq_error_iff.2 h]
      rfl
    | superClass hname hsome h =>
      rw [ConstantPool.className_eq_ok_iff.2 hname, readSuperName_eq_error_iff.2 ⟨hsome, h⟩]
      rfl
    | method hname hsuper hsplit hbefore h =>
      obtain ⟨superName, hsuper⟩ := exists_readSuperName_iff.2 hsuper
      rw [ConstantPool.className_eq_ok_iff.2 hname, hsuper]
      simp only [bind, Except.bind]
      rw [MethodTable.ofMembers_eq_error_iff.2 ⟨_, _, _, hsplit, hbefore, h⟩]

end

/-- **A file declares its class or the first defect is reported.** -/
theorem ofFile_outcome (file : ClassFile) :
    ((∃ c, ofFile file = .ok c) ↔ file.Declarable) ∧
    (∀ c, ofFile file = .ok c → c.DeclaredBy file) ∧
    ∀ d, ofFile file = .error d ↔ file.FirstDefect d :=
  ⟨exists_ofFile_iff, fun _ => declaredBy_of_ofFile, fun _ => ofFile_eq_error_iff⟩

/-- Two members `f()V` of a class `A`, the first with this code and the second native. -/
def Sample.redeclaring (bytes : Bytes) : ClassFile where
  minorVersion := 0
  majorVersion := 52
  constants := #[.unusable, .utf8 "A", .classRef 1, .utf8 "f", .utf8 "()V"]
  access := 0
  thisClass := 2
  superClass := 0
  interfaces := []
  fields := []
  methods := [⟨0x0008, 3, 4, [("Code", .code 1 0 bytes [] [])]⟩, ⟨0x0108, 3, 4, []⟩]
  attributes := []

/-- The second member counts, and still the first one has to be in order. -/
theorem ofFile_outcome_redeclaring :
    (∃ c method, ofFile (Sample.redeclaring [0xb1]) = .ok c ∧ c.method? "f" "()V" = some method ∧
      method.access = 0x0108 ∧ method.code = none) ∧
    ofFile (Sample.redeclaring [0xa7]) = .error (.invalidCode "A" "f" (.truncated 0)) := by
  obtain ⟨hok, hdeclared, -⟩ := ofFile_outcome (Sample.redeclaring [0xb1])
  obtain ⟨-, -, herror⟩ := ofFile_outcome (Sample.redeclaring [0xa7])
  have htype : MethodType.ofDescriptor? "()V" = some ⟨[], none⟩ := by decide +kernel
  have hname : ∀ bytes, (Sample.redeclaring bytes).pool.NamesClass 2 "A" := fun _ => ⟨1, rfl, rfl⟩
  have hnamed : ∀ bytes member, member ∈ (Sample.redeclaring bytes).methods →
      member.IsNamed (Sample.redeclaring bytes).pool "f" "()V" := by
    intro bytes member hmem
    simp only [Sample.redeclaring, List.mem_cons, List.not_mem_nil, or_false] at hmem
    rcases hmem with rfl | rfl <;> exact ⟨rfl, rfl⟩
  constructor
  · have hdecode : Code.decode [0xb1] = .ok #[⟨0, .ret, .none⟩] := by cbv
    obtain ⟨c, hc⟩ := hok.2 {
      thisClass := ⟨"A", hname _⟩
      superClass := .inl rfl
      methods := by
        intro member hmem
        refine ⟨⟨"f", (hnamed _ _ hmem).name⟩, ⟨"()V", _, (hnamed _ _ hmem).descriptor, htype⟩, ?_⟩
        rintro maxStack maxLocals bytes ⟨handlers, inner, hget⟩
        simp only [Sample.redeclaring, List.mem_cons, List.not_mem_nil, or_false] at hmem
        rcases hmem with rfl | rfl <;> cases hget
        exact ⟨_, hdecode⟩ }
    have hmember : ⟨0x0108, 3, 4, []⟩ ∈ (Sample.redeclaring [0xb1]).methods := .tail _ (.head _)
    have hmethod := ((hdeclared c hc).last "f" "()V" ⟨"f", "()V", 0x0108, ⟨[], none⟩, 0, 0, none⟩).2
      ⟨⟨0x0108, 3, 4, []⟩, ⟨hnamed _ _ hmember, [_], [], rfl, by simp⟩, hnamed _ _ hmember, htype, rfl, .none ?_⟩
    · exact ⟨c, _, hc, hmethod, rfl, rfl⟩
    · rintro maxStack maxLocals bytes ⟨handlers, inner, hget⟩
      cases hget
  · have hsplit : (Sample.redeclaring [0xa7]).methods = [] ++ _ :: _ := rfl
    refine (herror _).2 (.method (hname _) (.inl rfl) hsplit (by simp) ?_)
    exact .code (hnamed _ _ (.head _)) htype ⟨[], [], rfl⟩ (by cbv)

end Class

end Jvm
