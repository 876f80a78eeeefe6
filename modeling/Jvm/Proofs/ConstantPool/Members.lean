import Jvm.Proofs.ConstantPool
import Jvm.Proofs.Monad

/-!
# The members that a constant pool refers to

A field or a method is looked up through six slots at most: that of the reference, those of its class and of
the class's name, and those of a name and a descriptor and of the entry that pairs them. `memberLinks` lists
them in the order in which they are followed, each with what has to be there.

A look-up fails just if one of the links is broken, and then it blames the first (`Blames`). Nothing else in
the pool has an influence on it. Main theorem `symbolic_reference`.
-/

namespace Jvm

/-- Whether a constant is of a kind. A method may also be one of an interface. -/
def EntryKind.admits : EntryKind → Constant → Bool
  | .utf8, .utf8 _ => true
  | .classRef, .classRef _ => true
  | .nameAndType, .nameAndType _ _ => true
  | .fieldRef, .fieldRef _ _ => true
  | .methodRef, .methodRef _ _ => true
  | .methodRef, .interfaceMethodRef _ _ => true
  | .integer, .integer _ => true
  | _, _ => false

/-- What a reference can refer to. -/
inductive MemberKind where
  | field
  | method
deriving DecidableEq, Repr

namespace MemberKind

/-- What the reference itself has to be. -/
def entry : MemberKind → EntryKind
  | .field => .fieldRef
  | .method => .methodRef

/-- The class and the name with descriptor that a reference leads to. -/
def slots? : MemberKind → Constant → Option (UInt16 × UInt16)
  | .field, .fieldRef owner nameAndType => some (owner, nameAndType)
  | .method, .methodRef owner nameAndType => some (owner, nameAndType)
  | .method, .interfaceMethodRef owner nameAndType => some (owner, nameAndType)
  | _, _ => none

/-- The member that a slot refers to. -/
def lookUp : MemberKind → ConstantPool → UInt16 → Except Defect MemberRef
  | .field, pool, index => pool.field index
  | .method, pool, index => pool.method index

theorem admits_iff (kind : MemberKind) (c : Constant) :
    kind.entry.admits c = true ↔ ∃ owner nameAndType, kind.slots? c = some (owner, nameAndType) := by
  cases kind <;> cases c <;> simp [entry, EntryKind.admits, slots?]

end MemberKind

namespace ConstantPool

/-! ## Links -/

/-- A slot that a look-up comes to, and what has to be there. -/
structure Link where
  slot : UInt16
  expected : EntryKind
deriving DecidableEq, Repr

/-- Whether the slot holds what it has to. -/
def sound (pool : ConstantPool) (link : Link) : Bool := (pool.get? link.slot).any link.expected.admits

/-- The first link that is broken. -/
def firstBroken? (pool : ConstantPool) (links : List Link) : Option Link := links.find? fun link => !pool.sound link

/-- From a class to its name. -/
def classLinks (pool : ConstantPool) (index : UInt16) : List Link :=
  ⟨index, .classRef⟩ ::
    match pool.get? index with
    | some (.classRef name) => [⟨name, .utf8⟩]
    | _ => []

/-- From a pair to its name and its descriptor. -/
def pairLinks (pool : ConstantPool) (index : UInt16) : List Link :=
  ⟨index, .nameAndType⟩ ::
    match pool.get? index with
    | some (.nameAndType name descriptor) => [⟨name, .utf8⟩, ⟨descriptor, .utf8⟩]
    | _ => []

/-- From a reference to the names of the class and of the member, and to the descriptor. -/
def memberLinks (pool : ConstantPool) (kind : MemberKind) (index : UInt16) : List Link :=
  ⟨index, kind.entry⟩ ::
    match (pool.get? index).bind kind.slots? with
    | some (owner, nameAndType) => pool.classLinks owner ++ pool.pairLinks nameAndType
    | none => []

/-- The slot pairs this name and this descriptor. -/
def Pairs (pool : ConstantPool) (index : UInt16) (name descriptor : String) : Prop :=
  ∃ nameSlot descriptorSlot, pool.get? index = some (.nameAndType nameSlot descriptorSlot) ∧
    pool.Holds nameSlot name ∧ pool.Holds descriptorSlot descriptor

/-- The slot refers to this member. -/
def Names (pool : ConstantPool) (kind : MemberKind) (index : UInt16) (member : MemberRef) : Prop :=
  ∃ entry owner nameAndType, pool.get? index = some entry ∧ kind.slots? entry = some (owner, nameAndType) ∧
    pool.NamesClass owner member.owner ∧ pool.Pairs nameAndType member.name member.descriptor

/-- The look-up fails just if one of the links is broken, and blames the first that is. -/
def Blames {α : Type} (pool : ConstantPool) (lookUp : Except Defect α) (links : List Link) : Prop :=
  ∀ d, lookUp = .error d ↔ ∃ link, pool.firstBroken? links = some link ∧ d = .malformedReference link.slot link.expected

/-- The pools hold the same where these links lead. -/
def Agrees (pool pool' : ConstantPool) (links : List Link) : Prop :=
  ∀ link ∈ links, pool'.get? link.slot = pool.get? link.slot

section
variable {α β : Type} {pool pool' : ConstantPool} {links links' : List Link} {link : Link} {index : UInt16}

theorem firstBroken?_cons_of_sound (h : pool.sound link = true) (links : List Link) :
    pool.firstBroken? (link :: links) = pool.firstBroken? links := by
  simp [firstBroken?, h]

theorem firstBroken?_cons_of_broken (h : pool.sound link = false) (links : List Link) :
    pool.firstBroken? (link :: links) = some link := by
  simp [firstBroken?, h]

theorem firstBroken?_append (links links' : List Link) :
    pool.firstBroken? (links ++ links') = (pool.firstBroken? links).or (pool.firstBroken? links') :=
  List.find?_append

theorem sound_of_get? {c : Constant} {expected : EntryKind} (h : pool.get? index = some c)
    (hadmits : expected.admits c = true) : pool.sound ⟨index, expected⟩ = true := by
  simp [sound, h, hadmits]

theorem broken_of_get? {expected : EntryKind} (h : ∀ c, pool.get? index = some c → expected.admits c = false) :
    pool.sound ⟨index, expected⟩ = false := by
  cases hget : pool.get? index with
  | none => simp [sound, hget]
  | some c => simp [sound, hget, h c hget]

theorem Blames.firstBroken?_of_ok {r : Except Defect α} {a : α} (h : pool.Blames r links) (hr : r = .ok a) :
    pool.firstBroken? links = none := by
  cases hfirst : pool.firstBroken? links with
  | none => rfl
  | some link =>
    have herror := (h _).2 ⟨link, hfirst, rfl⟩
    rw [hr] at herror
    cases herror

/-- A look-up after another one. -/
theorem Blames.bind {r : Except Defect α} {k : α → Except Defect β} (h : pool.Blames r links)
    (hk : ∀ a, pool.Blames (k a) links') : pool.Blames (r >>= k) (links ++ links') := by
  intro d
  rw [firstBroken?_append]
  cases hr : r with
  | ok a =>
    rw [h.firstBroken?_of_ok hr, Option.none_or]
    exact hk a d
  | error e =>
    obtain ⟨link, hfirst, rfl⟩ := (h e).1 hr
    rw [hfirst, Option.some_or]
    constructor
    · rintro ⟨⟩
      exact ⟨link, rfl, rfl⟩
    · rintro ⟨_, ⟨⟩, rfl⟩
      rfl

theorem blames_pure (a : α) : pool.Blames (pure a) [] := by
  intro d
  simp [firstBroken?, pure, Except.pure]

/-- A look-up that has come to the right kind of entry. -/
theorem Blames.cons {r : Except Defect α} (hsound : pool.sound link = true) (h : pool.Blames r links) :
    pool.Blames r (link :: links) := by
  intro d
  rw [firstBroken?_cons_of_sound hsound]
  exact h d

/-- A look-up that ends at a broken link. -/
theorem blames_broken {expected : EntryKind} (hbroken : pool.sound ⟨index, expected⟩ = false) (links : List Link) :
    pool.Blames (.error (.malformedReference index expected) : Except Defect α) (⟨index, expected⟩ :: links) := by
  intro d
  rw [firstBroken?_cons_of_broken hbroken]
  simp [eq_comm]

/-! ## Whom the look-ups blame -/

theorem blames_utf8 (pool : ConstantPool) (index : UInt16) : pool.Blames (pool.utf8 index) [⟨index, .utf8⟩] := by
  unfold utf8
  split
  · rename_i text hget
    exact .cons (sound_of_get? hget rfl) (blames_pure text)
  · rename_i hother
    refine blames_broken (broken_of_get? fun c hget => ?_) []
    cases c with
    | utf8 text => exact absurd hget (hother text)
    | _ => rfl

theorem blames_className (pool : ConstantPool) (index : UInt16) :
    pool.Blames (pool.className index) (pool.classLinks index) := by
  unfold className
  split
  · rename_i name hget
    have hlinks : pool.classLinks index = [⟨index, .classRef⟩, ⟨name, .utf8⟩] := by simp only [classLinks, hget]
    rw [hlinks]
    exact .cons (sound_of_get? hget rfl) (blames_utf8 pool name)
  · rename_i hother
    refine blames_broken (broken_of_get? fun c hget => ?_) _
    cases c with
    | classRef name => exact absurd hget (hother name)
    | _ => rfl

theorem blames_nameAndType (pool : ConstantPool) (index : UInt16) :
    pool.Blames (pool.nameAndType index) (pool.pairLinks index) := by
  unfold nameAndType
  split
  · rename_i name descriptor hget
    have hlinks : pool.pairLinks index = [⟨index, .nameAndType⟩, ⟨name, .utf8⟩, ⟨descriptor, .utf8⟩] := by
      simp only [pairLinks, hget]
    rw [hlinks]
    refine .cons (sound_of_get? hget rfl) ((blames_utf8 pool name).bind fun first => ?_)
    rw [← List.append_nil [(⟨descriptor, .utf8⟩ : Link)]]
    exact (blames_utf8 pool descriptor).bind fun second => blames_pure (first, second)
  · rename_i hother
    refine blames_broken (broken_of_get? fun c hget => ?_) _
    cases c with
    | nameAndType name descriptor => exact absurd hget (hother name descriptor)
    | _ => rfl

theorem blames_member (pool : ConstantPool) (owner nameAndType : UInt16) :
    pool.Blames (pool.member owner nameAndType) (pool.classLinks owner ++ pool.pairLinks nameAndType) := by
  refine (blames_className pool owner).bind fun name => ?_
  rw [← List.append_nil (pool.pairLinks nameAndType)]
  exact (blames_nameAndType pool nameAndType).bind fun pair => blames_pure _

/-- What a reference leads to is looked up if it is one. -/
theorem lookUp_eq (kind : MemberKind) (pool : ConstantPool) (index : UInt16) :
    kind.lookUp pool index =
      match (pool.get? index).bind kind.slots? with
      | some (owner, nameAndType) => pool.member owner nameAndType
      | none => .error (.malformedReference index kind.entry) := by
  cases kind with
  | field =>
    rw [MemberKind.lookUp, field]
    cases pool.get? index with
    | none => rfl
    | some c => cases c <;> rfl
  | method =>
    rw [MemberKind.lookUp, method]
    cases pool.get? index with
    | none => rfl
    | some c => cases c <;> rfl

theorem blames_lookUp (kind : MemberKind) (pool : ConstantPool) (index : UInt16) :
    pool.Blames (kind.lookUp pool index) (pool.memberLinks kind index) := by
  rw [lookUp_eq, memberLinks]
  cases hslots : (pool.get? index).bind kind.slots? with
  | some slots =>
    obtain ⟨c, hget, hslots⟩ := Option.bind_eq_some_iff.1 hslots
    exact .cons (sound_of_get? hget (kind.admits_iff c |>.2 ⟨_, _, hslots⟩)) (blames_member pool _ _)
  | none =>
    refine blames_broken (broken_of_get? fun c hget => ?_) []
    rw [hget, Option.bind_some] at hslots
    rw [← Bool.not_eq_true, kind.admits_iff, hslots]
    simp

/-! ## What the look-ups find -/

theorem nameAndType_eq_ok_iff {name descriptor : String} :
    pool.nameAndType index = .ok (name, descriptor) ↔ pool.Pairs index name descriptor := by
  constructor
  · intro h
    unfold nameAndType at h
    split at h
    · rename_i nameSlot descriptorSlot hget
      obtain ⟨_, hname, h⟩ := exists_of_bind_ok h
      obtain ⟨_, hdescriptor, h⟩ := exists_of_bind_ok h
      cases h
      exact ⟨nameSlot, descriptorSlot, hget, utf8_eq_ok_iff.1 hname, utf8_eq_ok_iff.1 hdescriptor⟩
    · cases h
  · rintro ⟨nameSlot, descriptorSlot, hget, hname, hdescriptor⟩
    rw [nameAndType, hget]
    simp only [utf8_eq_ok_iff.2 hname, utf8_eq_ok_iff.2 hdescriptor]
    rfl

theorem member_eq_ok_iff {owner nameAndType : UInt16} {member : MemberRef} :
    pool.member owner nameAndType = .ok member ↔
      pool.NamesClass owner member.owner ∧ pool.Pairs nameAndType member.name member.descriptor := by
  constructor
  · intro h
    obtain ⟨_, howner, h⟩ := exists_of_bind_ok h
    obtain ⟨⟨_, _⟩, hpair, h⟩ := exists_of_bind_ok h
    cases h
    exact ⟨className_eq_ok_iff.1 howner, nameAndType_eq_ok_iff.1 hpair⟩
  · rintro ⟨howner, hpair⟩
    unfold ConstantPool.member
    rw [className_eq_ok_iff.2 howner]
    simp only [bind, Except.bind]
    rw [nameAndType_eq_ok_iff.2 hpair]
    rfl

theorem lookUp_eq_ok_iff {kind : MemberKind} {member : MemberRef} :
    kind.lookUp pool index = .ok member ↔ pool.Names kind index member := by
  rw [lookUp_eq]
  constructor
  · intro h
    split at h
    · rename_i owner nameAndType hslots
      obtain ⟨c, hget, hslots⟩ := Option.bind_eq_some_iff.1 hslots
      exact ⟨c, owner, nameAndType, hget, hslots, member_eq_ok_iff.1 h⟩
    · cases h
  · rintro ⟨c, owner, nameAndType, hget, hslots, hmember⟩
    simp only [hget, Option.bind_some, hslots]
    exact member_eq_ok_iff.2 hmember

/-! ## What the look-ups depend on -/

theorem Agrees.append_left (h : pool.Agrees pool' (links ++ links')) : pool.Agrees pool' links :=
  fun link hlink => h link (List.mem_append_left links' hlink)

theorem Agrees.append_right (h : pool.Agrees pool' (links ++ links')) : pool.Agrees pool' links' :=
  fun link hlink => h link (List.mem_append_right links hlink)

theorem Agrees.tail (h : pool.Agrees pool' (link :: links)) : pool.Agrees pool' links :=
  fun other hother => h other (List.mem_cons_of_mem link hother)

theorem Agrees.get?_eq {expected : EntryKind} (h : pool.Agrees pool' (⟨index, expected⟩ :: links)) :
    pool'.get? index = pool.get? index := h ⟨index, expected⟩ List.mem_cons_self

theorem Agrees.utf8_eq (h : pool.Agrees pool' [⟨index, .utf8⟩]) : pool'.utf8 index = pool.utf8 index := by
  rw [utf8, utf8, h.get?_eq]

theorem Agrees.className_eq (h : pool.Agrees pool' (pool.classLinks index)) :
    pool'.className index = pool.className index := by
  unfold classLinks at h
  rw [className, className, h.get?_eq]
  split
  · rename_i name hget
    rw [hget] at h
    exact h.tail.utf8_eq
  · rfl

theorem Agrees.nameAndType_eq (h : pool.Agrees pool' (pool.pairLinks index)) :
    pool'.nameAndType index = pool.nameAndType index := by
  unfold pairLinks at h
  rw [nameAndType, nameAndType, h.get?_eq]
  split
  · rename_i name descriptor hget
    rw [hget] at h
    have htexts : pool.Agrees pool' ([⟨name, .utf8⟩] ++ [⟨descriptor, .utf8⟩]) := h.tail
    rw [htexts.append_left.utf8_eq, htexts.append_right.utf8_eq]
  · rfl

theorem Agrees.lookUp_eq {kind : MemberKind} (h : pool.Agrees pool' (pool.memberLinks kind index)) :
    kind.lookUp pool' index = kind.lookUp pool index := by
  unfold memberLinks at h
  rw [ConstantPool.lookUp_eq, ConstantPool.lookUp_eq, h.get?_eq]
  split
  · rename_i owner nameAndType hslots
    rw [hslots] at h
    have hlinks : pool.Agrees pool' (pool.classLinks owner ++ pool.pairLinks nameAndType) := h.tail
    unfold ConstantPool.member
    rw [hlinks.append_left.className_eq, hlinks.append_right.nameAndType_eq]
  · rfl

theorem length_memberLinks_le (pool : ConstantPool) (kind : MemberKind) (index : UInt16) :
    (pool.memberLinks kind index).length ≤ 6 := by
  have hclass : ∀ owner, (pool.classLinks owner).length ≤ 2 := by
    intro owner
    unfold classLinks
    split <;> simp
  have hpair : ∀ nameAndType, (pool.pairLinks nameAndType).length ≤ 3 := by
    intro nameAndType
    unfold pairLinks
    split <;> simp
  unfold memberLinks
  split
  · rename_i owner nameAndType _
    have := hclass owner
    have := hpair nameAndType
    simp only [List.length_cons, List.length_append]
    omega
  · simp

end

/-! ## Altogether -/

/-- What looking a member up does. -/
structure LooksUp (pool : ConstantPool) (kind : MemberKind) (index : UInt16) : Prop where
  /-- It gives the member just if the slot refers to it. -/
  finds : ∀ member, kind.lookUp pool index = .ok member ↔ pool.Names kind index member
  /-- It fails just if a link is broken, with the slot and the kind of the first that is. -/
  blames : ∀ d, kind.lookUp pool index = .error d ↔ ∃ link,
    pool.firstBroken? (pool.memberLinks kind index) = some link ∧ d = .malformedReference link.slot link.expected
  /-- There are six links at most. -/
  few : (pool.memberLinks kind index).length ≤ 6
  /-- What stands anywhere else does not matter. -/
  depends : ∀ pool', (∀ link ∈ pool.memberLinks kind index, pool'.get? link.slot = pool.get? link.slot) →
    kind.lookUp pool' index = kind.lookUp pool index

/-- **Symbolic references** are resolved just if all their links are sound, and the first broken link is
blamed otherwise, whatever the pool holds. -/
theorem symbolic_reference (pool : ConstantPool) (kind : MemberKind) (index : UInt16) :
    pool.LooksUp kind index where
  finds _ := lookUp_eq_ok_iff
  blames := blames_lookUp kind pool index
  few := length_memberLinks_le pool kind index
  depends _ h := Agrees.lookUp_eq h

/-- An entry that refers to itself. -/
example : (ConstantPool.mk #[.unusable, .methodRef 1 1]).method 1 = .error (.malformedReference 1 .classRef) := rfl

end ConstantPool

end Jvm
