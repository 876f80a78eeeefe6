import Jvm.Proofs.Loader.Decoded

/-!
# What a loader keeps

A loader that started without classes holds under each name a class that some file declares and that
declares this very name (`Used.sound`). It never gives up or replaces a class that it has
(`extends_findMethod`), and the class that declares a method it finds is the one it keeps under that
class's name (`cached_of_findMethod`).

The first section is about the classes that files declare: no two methods of one share name and
descriptor, and each has the type that its descriptor spells.
-/

namespace Jvm

/-! ## Classes that files declare -/

/-- The type of a method is what its descriptor spells. -/
def Method.Typed (method : Method) : Prop :=
  MethodType.ofDescriptor? method.descriptor = some method.type

namespace MethodTable

/-- No two methods share name and descriptor. -/
def Distinct (table : MethodTable) : Prop :=
  table.Pairwise fun method other => ¬(other.isNamed method.name method.descriptor = true)

theorem isNamed_comm (method other : Method) :
    method.isNamed other.name other.descriptor = other.isNamed method.name method.descriptor := by
  simp only [Method.isNamed, BEq.comm (a := method.name), BEq.comm (a := method.descriptor)]

theorem Distinct.insert {table : MethodTable} (h : table.Distinct) (method : Method) :
    (table.insert method).Distinct := by
  refine List.pairwise_append.2 ⟨h.sublist List.filter_sublist, List.pairwise_singleton _ _, ?_⟩
  intro other hother last hlast
  obtain rfl := List.mem_singleton.1 hlast
  have := (List.mem_filter.1 hother).2
  rw [isNamed_comm]
  simpa using this

/-- Each method is found under its own name and descriptor. -/
theorem Distinct.get?_of_mem {table : MethodTable} (h : table.Distinct) {method : Method}
    (hmem : method ∈ table) : table.get? method.name method.descriptor = some method := by
  have hself : method.isNamed method.name method.descriptor = true := Method.isNamed_iff.2 ⟨rfl, rfl⟩
  induction table with
  | nil => exact absurd hmem List.not_mem_nil
  | cons first rest ih =>
    obtain ⟨hfirst, hrest⟩ := List.pairwise_cons.1 h
    rcases List.mem_cons.1 hmem with rfl | hlater
    · exact List.find?_cons_of_pos hself
    · have hother : ¬(first.isNamed method.name method.descriptor = true) := by
        rw [isNamed_comm]
        exact hfirst method hlater
      rw [← ih hrest hlater]
      exact List.find?_cons_of_neg hother

theorem distinct_foldl_insert {table : MethodTable} (h : table.Distinct) (methods : List Method) :
    Distinct (methods.foldl insert table) := by
  induction methods generalizing table with
  | nil => exact h
  | cons method rest ih => exact ih (h.insert method)

theorem distinct_ofMembers {pool : ConstantPool} {owner : String} {members : List Member} {table : MethodTable}
    (h : ofMembers pool owner members = .ok table) : table.Distinct := by
  rw [ofMembers_eq] at h
  obtain ⟨methods, -, rfl⟩ := exists_of_map_ok h
  exact distinct_foldl_insert .nil methods

end MethodTable

namespace Class

/-- Some class file declares the class. -/
def Declared (c : Class) : Prop := ∃ file, ofFile file = .ok c

section
variable {c : Class} {method : Method}

theorem Declared.decoded (h : c.Declared) : c.Decoded := by
  obtain ⟨file, h⟩ := h
  exact decoded_ofFile h

theorem Declared.exists_table (h : c.Declared) :
    ∃ pool owner members, MethodTable.ofMembers pool owner members = .ok c.methods := by
  obtain ⟨file, h⟩ := h
  obtain ⟨-, -, hmethods, -⟩ := exists_of_ofFile h
  exact ⟨_, _, _, hmethods⟩

theorem Declared.typed (h : c.Declared) (hmem : method ∈ c.methods) : method.Typed := by
  obtain ⟨pool, owner, members, h⟩ := h.exists_table
  obtain ⟨member, hmember⟩ := MethodTable.exists_member_of_mem h hmem
  exact hmember.type

theorem Declared.method?_of_mem (h : c.Declared) (hmem : method ∈ c.methods) :
    c.method? method.name method.descriptor = some method := by
  obtain ⟨pool, owner, members, h⟩ := h.exists_table
  exact (MethodTable.distinct_ofMembers h).get?_of_mem hmem

theorem mem_of_method? {name descriptor : String} (h : c.method? name descriptor = some method) :
    method ∈ c.methods ∧ method.name = name ∧ method.descriptor = descriptor := by
  have hnamed := List.find?_some h
  exact ⟨List.mem_of_find?_eq_some h, Method.isNamed_iff.1 hnamed⟩

end

end Class

/-! ## The cache -/

namespace Loader

/-- `later` looks under the same roots and still has every class of `loader`. -/
structure Extends (loader later : Loader) : Prop where
  roots : later.roots = loader.roots
  cached : ∀ name c, loader.cached? name = some c → later.cached? name = some c

/-- Under each name there is a class of this name that some file declares. -/
def Sound (loader : Loader) : Prop :=
  ∀ name c, loader.cached? name = some c → c.name = name ∧ c.Declared

/-- A loader that started without classes. -/
inductive Used : Loader → Prop
  | fresh (roots : List String) : Used { roots }
  | resolve {loader : Loader} (files : FileSystem) (name : String) :
      Used loader → Used (loader.resolve files name).loader
  | tryResolve {loader : Loader} (files : FileSystem) (name : String) :
      Used loader → Used (loader.tryResolve files name).loader

section
variable {loader later : Loader} {files : FileSystem} {target : MemberRef} {name : String} {c : Class}

theorem Extends.refl (loader : Loader) : loader.Extends loader := ⟨rfl, fun _ _ h => h⟩

theorem Extends.trans {latest : Loader} (h : loader.Extends later) (h' : later.Extends latest) :
    loader.Extends latest :=
  ⟨h'.roots.trans h.roots, fun name c hc => h'.cached name c (h.cached name c hc)⟩

theorem cached?_cons (loader : Loader) (name other : String) (c : Class) :
    ({ loader with cache := (name, c) :: loader.cache } : Loader).cached? other =
      if other = name then some c else loader.cached? other := by
  unfold cached?
  rw [List.lookup_cons]
  by_cases h : other = name
  · simp [h]
  · simp [h, beq_false_of_ne h]

theorem declared_of_loadFile {path : String} (h : loadFile files name path = .ok c) :
    c.name = name ∧ c.Declared := by
  obtain ⟨bytes, -, h⟩ := exists_of_bind_ok h
  obtain ⟨file, -, h⟩ := exists_of_bind_ok h
  obtain ⟨c', hclass, h⟩ := exists_of_bind_ok h
  split at h
  · cases h
    exact ⟨‹_›, file, ok_of_mapError_ok hclass⟩
  · cases h

theorem exists_loadFile_of_probe {path : String} {roots : List String} {misses : List Miss}
    (h : probe files name roots = (misses, some (path, c))) : loadFile files name path = .ok c := by
  induction roots generalizing misses with
  | nil => cases h
  | cons root rest ih =>
    rw [probe] at h
    split at h
    · rename_i hload
      cases h
      exact hload
    · cases hrest : probe files name rest with
      | mk later found =>
        rw [hrest] at h
        cases h
        exact ih hrest

/-- A search finds the class in the cache, or reads it from a file and keeps it, or finds nothing. -/
theorem search_cases (files : FileSystem) (loader : Loader) (name : String) :
    (∃ c, loader.cached? name = some c ∧ (loader.search files name).result = .ok c ∧
      (loader.search files name).loader = loader) ∨
    (∃ c path, loader.cached? name = none ∧ loadFile files name path = .ok c ∧
      (loader.search files name).result = .ok c ∧
      (loader.search files name).loader = { loader with cache := (name, c) :: loader.cache }) ∨
    (∃ misses, loader.cached? name = none ∧ (loader.search files name).result = .error misses ∧
      (loader.search files name).loader = loader) := by
  unfold search
  cases hcached : loader.cached? name with
  | some c => exact .inl ⟨c, rfl, rfl, rfl⟩
  | none =>
    cases hprobe : probe files name loader.roots with
    | mk misses found =>
      cases found with
      | none => exact .inr (.inr ⟨misses, rfl, rfl, rfl⟩)
      | some entry =>
        obtain ⟨path, c⟩ := entry
        exact .inr (.inl ⟨c, path, rfl, exists_loadFile_of_probe hprobe, rfl, rfl⟩)

theorem extends_search (files : FileSystem) (loader : Loader) (name : String) :
    loader.Extends (loader.search files name).loader := by
  rcases search_cases files loader name with ⟨c, -, -, hl⟩ | ⟨c, path, hnone, -, -, hl⟩ | ⟨misses, -, -, hl⟩
  · rw [hl]
    exact .refl loader
  · rw [hl]
    refine ⟨rfl, fun other d hd => ?_⟩
    have hne : other ≠ name := by
      rintro rfl
      rw [hnone] at hd
      cases hd
    rw [cached?_cons, if_neg hne]
    exact hd
  · rw [hl]
    exact .refl loader

theorem cached_of_search (h : (loader.search files name).result = .ok c) :
    (loader.search files name).loader.cached? name = some c := by
  rcases search_cases files loader name with ⟨d, hd, hr, hl⟩ | ⟨d, path, -, -, hr, hl⟩ | ⟨misses, -, hr, -⟩
  · cases hr.symm.trans h
    rw [hl, hd]
  · cases hr.symm.trans h
    rw [hl, cached?_cons, if_pos rfl]
  · cases hr.symm.trans h

theorem Sound.search (h : loader.Sound) (files : FileSystem) (name : String) :
    (loader.search files name).loader.Sound := by
  rcases search_cases files loader name with ⟨c, -, -, hl⟩ | ⟨c, path, -, hload, -, hl⟩ | ⟨misses, -, -, hl⟩
  · rw [hl]
    exact h
  · rw [hl]
    intro other d hd
    rw [cached?_cons] at hd
    split at hd
    · rename_i heq
      cases hd
      rw [heq]
      exact declared_of_loadFile hload
    · exact h other d hd
  · rw [hl]
    exact h

theorem cached_of_resolve (h : (loader.resolve files name).result = .ok c) :
    (loader.resolve files name).loader.cached? (internalName name) = some c :=
  cached_of_search (ok_of_mapError_ok h)

theorem cached_of_tryResolve (h : (loader.tryResolve files name).result = .ok (some c)) :
    (loader.tryResolve files name).loader.cached? (internalName name) = some c := by
  refine cached_of_search ?_
  unfold tryResolve at h
  simp only at h
  split at h
  · cases h
    assumption
  · split at h <;> cases h

/-- A loader that started without classes has only genuine ones. -/
theorem Used.sound (h : loader.Used) : loader.Sound := by
  induction h with
  | fresh roots =>
    intro name c hc
    cases hc
  | resolve files name _ ih => exact ih.search files (internalName name)
  | tryResolve files name _ ih => exact ih.search files (internalName name)

/-! ## The search for a method -/

theorem climb_of_declares {method : Method} (hmethod : c.method? target.name target.descriptor = some method)
    (files : FileSystem) (limit : Nat) (loader : Loader) :
    climb files target (limit + 1) c loader = { result := .ok (c, method), loader } := by
  simp only [climb, hmethod]

theorem climb_of_parent {name : String} {parent : Class} (hlacks : c.method? target.name target.descriptor = none)
    (hsuper : c.superName = some name) (hparent : (loader.tryResolve files name).result = .ok (some parent))
    (limit : Nat) :
    (climb files target (limit + 1) c loader).result =
        (climb files target limit parent (loader.tryResolve files name).loader).result ∧
      (climb files target (limit + 1) c loader).loader =
        (climb files target limit parent (loader.tryResolve files name).loader).loader := by
  simp only [climb, hlacks, hsuper, hparent, and_self]

/-- A class on the way to a method that is found declares it, or its superclass is found and comes next. -/
theorem exists_of_climb {limit : Nat} {owner : Class} {method : Method}
    (h : (climb files target (limit + 1) c loader).result = .ok (owner, method)) :
    c.method? target.name target.descriptor = some method ∧ owner = c ∨
      ∃ name parent, c.method? target.name target.descriptor = none ∧ c.superName = some name ∧
        (loader.tryResolve files name).result = .ok (some parent) ∧
        (climb files target limit parent (loader.tryResolve files name).loader).result = .ok (owner, method) := by
  cases hmethod : c.method? target.name target.descriptor with
  | some found =>
    rw [climb_of_declares hmethod] at h
    cases h
    exact .inl ⟨rfl, rfl⟩
  | none =>
    cases hsuper : c.superName with
    | none =>
      simp only [climb, hmethod, hsuper] at h
      cases h
    | some name =>
      cases htry : (loader.tryResolve files name).result with
      | error e =>
        simp only [climb, hmethod, hsuper, htry] at h
        cases h
      | ok next =>
        cases next with
        | none =>
          simp only [climb, hmethod, hsuper, htry] at h
          cases h
        | some parent =>
          rw [(climb_of_parent hmethod hsuper htry limit).1] at h
          exact .inr ⟨name, parent, rfl, rfl, htry, h⟩

/-- What each step of a search for a method keeps of the loader, the search keeps. -/
theorem loader_of_climb {p : Loader → Prop}
    (hp : ∀ (loader : Loader) (name : String), p loader → p (loader.tryResolve files name).loader)
    (limit : Nat) (c : Class) (hl : p loader) : p (climb files target limit c loader).loader := by
  induction limit generalizing c loader with
  | zero => exact hl
  | succ limit ih =>
    unfold climb
    simp only
    split
    · exact hl
    · split
      · exact hl
      · rename_i parent _
        have hnext := hp loader parent hl
        split
        · exact hnext
        · exact hnext
        · exact ih _ hnext

theorem loader_of_findMethod {p : Loader → Prop}
    (hresolve : ∀ (loader : Loader) (name : String), p loader → p (loader.resolve files name).loader)
    (htry : ∀ (loader : Loader) (name : String), p loader → p (loader.tryResolve files name).loader)
    (hl : p loader) : p (loader.findMethod files target).loader := by
  have hstart := hresolve loader target.owner hl
  unfold findMethod
  simp only
  split
  · exact hstart
  · exact loader_of_climb htry _ _ hstart

theorem extends_findMethod (files : FileSystem) (loader : Loader) (target : MemberRef) :
    loader.Extends (loader.findMethod files target).loader :=
  loader_of_findMethod (p := loader.Extends) (fun later _ h => h.trans (extends_search files later _))
    (fun later _ h => h.trans (extends_search files later _)) (.refl loader)

theorem Used.findMethod (h : loader.Used) (files : FileSystem) (target : MemberRef) :
    (loader.findMethod files target).loader.Used :=
  loader_of_findMethod (fun _ name h => h.resolve files name) (fun _ name h => h.tryResolve files name) h

theorem cached_of_climb {limit : Nat} {owner : Class} {method : Method} (hl : loader.Used)
    (hc : loader.cached? c.name = some c)
    (h : (climb files target limit c loader).result = .ok (owner, method)) :
    (climb files target limit c loader).loader.cached? owner.name = some owner ∧
      owner.method? target.name target.descriptor = some method := by
  induction limit generalizing c loader with
  | zero => cases h
  | succ limit ih =>
    rcases exists_of_climb h with ⟨hmethod, rfl⟩ | ⟨name, parent, hlacks, hsuper, htry, hrest⟩
    · rw [climb_of_declares hmethod]
      exact ⟨hc, hmethod⟩
    · rw [(climb_of_parent hlacks hsuper htry limit).2]
      have hcached := cached_of_tryResolve htry
      have hused := hl.tryResolve files name
      rw [← (hused.sound _ _ hcached).1] at hcached
      exact ih hused hcached hrest

/-- The class of a method that was found is the one that the loader has under its name. -/
theorem cached_of_findMethod {owner : Class} {method : Method} (hl : loader.Used)
    (h : (loader.findMethod files target).result = .ok (owner, method)) :
    (loader.findMethod files target).loader.cached? owner.name = some owner ∧
      owner.method? target.name target.descriptor = some method := by
  unfold findMethod at h ⊢
  cases hstart : (loader.resolve files target.owner).result with
  | error e =>
    simp only [hstart] at h
    cases h
  | ok c =>
    simp only [hstart] at h ⊢
    have hcached := cached_of_resolve hstart
    have hused := hl.resolve files target.owner
    rw [← (hused.sound _ _ hcached).1] at hcached
    exact cached_of_climb hused hcached h

end

end Loader

end Jvm
