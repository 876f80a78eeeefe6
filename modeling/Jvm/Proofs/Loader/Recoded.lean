import Jvm.Proofs.Code.Encodings
import Jvm.Proofs.Loader.Decoded
import Jvm.Proofs.Loader.Faithful

/-!
# Classes whose code is written differently

Two versions of a class differ in how the instructions of their methods are encoded, and in nothing else:
`Class.Recoded`. A loader that works on one set of class files and a loader that works on another version
of each of them find the same, up to that difference: a class (`resolve_recoded`, `tryResolve_recoded`),
and a method through superclasses (`findMethod_recoded`).
-/

namespace Jvm

/-- As many instructions, each equivalent to the one in its place. -/
def Code.Recoded (code code' : Code) : Prop := List.Forall₂ Instruction.Equivalent code.toList code'.toList

instance : DecidableRel Code.Recoded := fun code code' =>
  inferInstanceAs (Decidable (List.Forall₂ Instruction.Equivalent code.toList code'.toList))

/-- Two methods that have been decoded and differ only in how their code was written. -/
structure Method.Recoded (method method' : Method) : Prop where
  same : method' = { method with code := method'.code }
  code : Option.Rel Code.Recoded method.code method'.code
  decoded : method.Decoded
  decoded' : method'.Decoded

structure Class.Recoded (c c' : Class) : Prop where
  name : c'.name = c.name
  superName : c'.superName = c.superName
  pool : c'.pool = c.pool
  methods : List.Forall₂ Method.Recoded c.methods c'.methods

/-- The files give versions of the same classes, and where one gives none the other fails alike. -/
def FileSystem.Recoded (files files' : FileSystem) : Prop :=
  ∀ name path, Matches Class.Recoded (Loader.loadFile files name path) (Loader.loadFile files' name path)

/-- The loaders have loaded versions of the same classes. -/
structure Loader.Recoded (loader loader' : Loader) : Prop where
  roots : loader'.roots = loader.roots
  cached : ∀ name, Option.Rel Class.Recoded (loader.cached? name) (loader'.cached? name)

/-- The work of two loaders gives the same up to `rel`, and leaves versions of the same classes. -/
structure Loading.Recoded {ε α : Type} (rel : α → α → Prop) (done done' : Loading ε α) : Prop where
  result : Matches rel done.result done'.result
  loader : done.loader.Recoded done'.loader

/-! ## Code -/

section
variable {code code' : Code}

theorem Instruction.Equivalent.refl (inst : Instruction Nat) : inst.Equivalent inst := ⟨rfl, .inl rfl⟩

theorem Code.Recoded.refl (code : Code) : code.Recoded code := List.forall₂_same.2 fun inst _ => .refl inst

theorem Code.Recoded.getElem? (h : code.Recoded code') (i : Nat) :
    Option.Rel Instruction.Equivalent code[i]? code'[i]? := by
  obtain ⟨hlength, hget⟩ := List.forall₂_iff_get.1 h
  rw [← Array.getElem?_toList, ← Array.getElem?_toList]
  by_cases hi : i < code.toList.length
  · have hi' : i < code'.toList.length := hlength ▸ hi
    rw [List.getElem?_eq_getElem hi, List.getElem?_eq_getElem hi']
    exact .some (hget i hi hi')
  · have hi' : ¬i < code'.toList.length := hlength ▸ hi
    rw [List.getElem?_eq_none (Nat.le_of_not_lt hi), List.getElem?_eq_none (Nat.le_of_not_lt hi')]
    exact .none

end

/-! ## Methods -/

namespace Method.Recoded
variable {method method' : Method}

theorem refl (h : method.Decoded) : method.Recoded method where
  same := rfl
  code := by
    cases method.code with
    | none => exact .none
    | some code => exact .some (.refl code)
  decoded := h
  decoded' := h

theorem name (h : method.Recoded method') : method'.name = method.name := by rw [h.same]

theorem descriptor (h : method.Recoded method') : method'.descriptor = method.descriptor := by rw [h.same]

theorem maxLocals (h : method.Recoded method') : method'.maxLocals = method.maxLocals := by rw [h.same]

theorem isStatic (h : method.Recoded method') : method'.isStatic = method.isStatic := by rw [h.same]; rfl

theorem argumentCount (h : method.Recoded method') : method'.argumentCount = method.argumentCount := by rw [h.same]; rfl

theorem isNamed (h : method.Recoded method') (name descriptor : String) :
    method'.isNamed name descriptor = method.isNamed name descriptor := by rw [h.same]; rfl

theorem isNone_code (h : method.Recoded method') : method'.code.isNone = method.code.isNone := by
  have hcode := h.code
  generalize method.code = code, method'.code = code' at hcode
  cases hcode <;> rfl

end Method.Recoded

/-! ## Classes -/

/-- The first elements that pass a test, where the tests agree on related elements. -/
theorem forall₂_find? {α : Type} {rel : α → α → Prop} {p : α → Bool} {l l' : List α} (h : List.Forall₂ rel l l')
    (hp : ∀ a a', rel a a' → p a' = p a) : Option.Rel rel (l.find? p) (l'.find? p) := by
  induction h with
  | nil => exact .none
  | @cons a a' l l' ha _ ih =>
    rw [List.find?_cons, List.find?_cons, hp a a' ha]
    cases p a with
    | true => exact .some ha
    | false => exact ih

namespace Class.Recoded
variable {c c' : Class}

theorem refl (h : c.Decoded) : c.Recoded c where
  name := rfl
  superName := rfl
  pool := rfl
  methods := List.forall₂_same.2 fun method hmem => .refl (h method hmem)

theorem method? (h : c.Recoded c') (name descriptor : String) :
    Option.Rel Method.Recoded (c.method? name descriptor) (c'.method? name descriptor) :=
  forall₂_find? h.methods fun _ _ hmethod => hmethod.isNamed name descriptor

end Class.Recoded

/-- Programs start with versions of the same method. -/
def MethodOrder.Recoded (order order' : MethodOrder) : Prop :=
  ∀ c c' : Class, c.Recoded c' → Option.Rel Method.Recoded (c.entryPoint? order) (c'.entryPoint? order')

/-- In the order of the class file they do. -/
theorem MethodOrder.recoded_ofFile : ofFile.Recoded ofFile := by
  intro c c' h
  have hmain := h.method? Class.entryName Class.entryDescriptor
  unfold Class.entryPoint?
  generalize c.method? Class.entryName Class.entryDescriptor = found,
    c'.method? Class.entryName Class.entryDescriptor = found' at hmain
  cases hmain with
  | some hmethod => exact .some hmethod
  | none =>
    refine forall₂_find? h.methods fun method method' hmethod => ?_
    rw [Class.mayStart, Class.mayStart, hmethod.name, hmethod.isStatic, hmethod.argumentCount]

/-! ## Loaders -/

namespace Loader
variable {files files' : FileSystem} {loader loader' : Loader} {target : MemberRef} {c c' : Class}

/-- Both loaders keep a class under the same name. -/
theorem Recoded.keep (h : loader.Recoded loader') (hc : c.Recoded c') (name : String) :
    Loader.Recoded { loader with cache := (name, c) :: loader.cache }
      { loader' with cache := (name, c') :: loader'.cache } where
  roots := h.roots
  cached other := by
    rw [cached?_cons, cached?_cons]
    split
    · exact .some hc
    · exact h.cached other

/-- A class file gives its class under the name of that class. -/
theorem loadFile_of_declared? {path : String} {bytes : Bytes} (hread : files.read path = .ok bytes)
    (hc : declared? bytes = some c) (name : String) :
    loadFile files name path = if c.name = name then .ok c else .error (.declares c.name) := by
  unfold declared? at hc
  split at hc
  · rename_i file hparse
    cases hclass : Class.ofFile file with
    | error d =>
      rw [hclass] at hc
      cases hc
    | ok d =>
      rw [hclass] at hc
      cases hc
      unfold loadFile
      simp only [hread, Except.mapError, bind, Except.bind, hparse, hclass]
      rfl
  · cases hc

theorem probe_recoded (hfiles : files.Recoded files') (name : String) (roots : List String) :
    (probe files' name roots).1 = (probe files name roots).1 ∧
      Option.Rel (fun found found' => found'.1 = found.1 ∧ found.2.Recoded found'.2)
        (probe files name roots).2 (probe files' name roots).2 := by
  induction roots with
  | nil => exact ⟨rfl, .none⟩
  | cons root rest ih =>
    have hload := hfiles name (Path.classFile root name)
    rw [probe, probe]
    generalize loadFile files name (Path.classFile root name) = result,
      loadFile files' name (Path.classFile root name) = result' at hload
    cases hload with
    | ok hc => exact ⟨rfl, .some ⟨rfl, hc⟩⟩
    | error cause => exact ⟨congrArg (_ :: ·) ih.1, ih.2⟩

theorem search_recoded (hfiles : files.Recoded files') (h : loader.Recoded loader') (name : String) :
    Loading.Recoded Class.Recoded (loader.search files name) (loader'.search files' name) := by
  have hcached := h.cached name
  obtain ⟨hmisses, hfound⟩ := probe_recoded hfiles name loader.roots
  have hroots : probe files' name loader'.roots = probe files' name loader.roots := by rw [h.roots]
  unfold search
  rw [hroots]
  generalize loader.cached? name = known, loader'.cached? name = known' at hcached
  cases hcached with
  | some hc => exact ⟨.ok hc, h⟩
  | none =>
    generalize probe files name loader.roots = probed, probe files' name loader.roots = probed' at hmisses hfound
    obtain ⟨misses, found⟩ := probed
    obtain ⟨misses', found'⟩ := probed'
    obtain rfl : misses' = misses := hmisses
    cases hfound with
    | some hentry => exact ⟨.ok hentry.2, h.keep hentry.2 name⟩
    | none => exact ⟨.error _, h⟩

theorem resolve_recoded (hfiles : files.Recoded files') (h : loader.Recoded loader') (name : String) :
    Loading.Recoded Class.Recoded (loader.resolve files name) (loader'.resolve files' name) := by
  obtain ⟨hresult, hloader⟩ := search_recoded hfiles h (internalName name)
  exact ⟨hresult.mapError _, hloader⟩

theorem tryResolve_recoded (hfiles : files.Recoded files') (h : loader.Recoded loader') (name : String) :
    Loading.Recoded (Option.Rel Class.Recoded) (loader.tryResolve files name) (loader'.tryResolve files' name) := by
  obtain ⟨hresult, hloader⟩ := search_recoded hfiles h (internalName name)
  refine ⟨?_, hloader⟩
  simp only [tryResolve]
  generalize (loader.search files (internalName name)).result = result,
    (loader'.search files' (internalName name)).result = result' at hresult
  cases hresult with
  | ok hc => exact .ok (.some hc)
  | error misses =>
    simp only
    split
    · exact .ok .none
    · exact .error _

/-- What two searches for a method find. -/
def FoundRecoded (found found' : Class × Method) : Prop := found.1.Recoded found'.1 ∧ found.2.Recoded found'.2

theorem climb_recoded (target : MemberRef) (hfiles : files.Recoded files') (hc : c.Recoded c')
    (h : loader.Recoded loader') (limit : Nat) :
    Loading.Recoded FoundRecoded (climb files target limit c loader) (climb files' target limit c' loader') := by
  induction limit generalizing c c' loader loader' with
  | zero => exact ⟨.error _, h⟩
  | succ limit ih =>
    have hmethod := hc.method? target.name target.descriptor
    unfold climb
    rw [hc.superName]
    generalize c.method? target.name target.descriptor = found,
      c'.method? target.name target.descriptor = found' at hmethod
    cases hmethod with
    | some hmethod => exact ⟨.ok ⟨hc, hmethod⟩, h⟩
    | none =>
      cases c.superName with
      | none => exact ⟨.error _, h⟩
      | some parent =>
        obtain ⟨hresult, hloader⟩ := tryResolve_recoded hfiles h parent
        simp only
        generalize (loader.tryResolve files parent).result = result,
          (loader'.tryResolve files' parent).result = result' at hresult
        cases hresult with
        | error e => exact ⟨.error _, hloader⟩
        | ok hparent =>
          cases hparent with
          | none => exact ⟨.error _, hloader⟩
          | some hparent =>
            obtain ⟨hrest, hloader⟩ := ih hparent hloader
            exact ⟨hrest, hloader⟩

/-- The search for a method without its limit, which depends on the number of files: it goes as far as any
limit allows that is no less. -/
theorem findMethod_eq_climb {n : Nat} (hn : climbLimit files loader ≤ n)
    (hc : (loader.resolve files target.owner).result = .ok c)
    (hend : (climb files target n c (loader.resolve files target.owner).loader).result ≠ .error .unfinished) :
    (loader.findMethod files target).result =
        (climb files target n c (loader.resolve files target.owner).loader).result ∧
      (loader.findMethod files target).loader =
        (climb files target n c (loader.resolve files target.owner).loader).loader := by
  have hresult : (loader.findMethod files target).result = _ := findMethod_of_le hn hc
  have hless : (climb files target (climbLimit files loader) c
      (loader.resolve files target.owner).loader).result ≠ .error .unfinished := by
    rwa [← findMethod_of_resolve hc, hresult]
  refine ⟨hresult, ?_⟩
  rw [climb_of_le hn hless]
  simp only [findMethod, hc]

/-- **Versions of a method.** Both searches go on for ever, or they find versions of one method, or they fail
alike. -/
theorem findMethod_recoded (hfiles : files.Recoded files') (h : loader.Recoded loader') (target : MemberRef) :
    ((loader.findMethod files target).result = .error .unfinished ∧
        (loader'.findMethod files' target).result = .error .unfinished) ∨
      Loading.Recoded FoundRecoded (loader.findMethod files target) (loader'.findMethod files' target) := by
  obtain ⟨hresult, hloader⟩ := resolve_recoded hfiles h target.owner
  cases hc : (loader.resolve files target.owner).result with
  | error e =>
    have hc' := (hresult.error_iff e).1 hc
    refine .inr ⟨?_, ?_⟩
    · simp only [findMethod, hc, hc']
      exact .error _
    · simpa only [findMethod, hc, hc'] using hloader
  | ok c =>
    obtain ⟨c', hc', hversion⟩ := hresult.exists_ok hc
    -- The limits of the two searches differ; neither is felt.
    let n := max (climbLimit files loader) (climbLimit files' loader')
    have hn : climbLimit files loader ≤ n := Nat.le_max_left _ _
    have hn' : climbLimit files' loader' ≤ n := Nat.le_max_right _ _
    have hclimb := climb_recoded target hfiles hversion hloader n
    have hmore := hclimb.result.error_iff .unfinished
    by_cases hend : (climb files target n c (loader.resolve files target.owner).loader).result = .error .unfinished
    · exact .inl ⟨(findMethod_of_le hn hc).trans hend, (findMethod_of_le hn' hc').trans (hmore.1 hend)⟩
    · obtain ⟨hr, hl⟩ := findMethod_eq_climb hn hc hend
      obtain ⟨hr', hl'⟩ := findMethod_eq_climb hn' hc' (mt hmore.2 hend)
      exact .inr ⟨by rw [hr, hr']; exact hclimb.result, by rw [hl, hl']; exact hclimb.loader⟩

end Loader

/-- File systems give versions of the same classes if they read the same everywhere but where they read class files
of two versions. -/
theorem FileSystem.recoded_of_read {files files' : FileSystem}
    (h : ∀ path, files'.read path = files.read path ∨ ∃ bytes bytes' c c', files.read path = .ok bytes ∧
      files'.read path = .ok bytes' ∧ Loader.declared? bytes = some c ∧ Loader.declared? bytes' = some c' ∧
      c.Recoded c') :
    files.Recoded files' := by
  intro name path
  rcases h path with hsame | ⟨bytes, bytes', c, c', hread, hread', hc, hc', hversion⟩
  · have hload : Loader.loadFile files' name path = Loader.loadFile files name path := by
      rw [Loader.loadFile, Loader.loadFile, hsame]
    rw [hload]
    cases hresult : Loader.loadFile files name path with
    | ok c => exact .ok (.refl (Loader.decoded_of_loadFile hresult))
    | error cause => exact .error cause
  · rw [Loader.loadFile_of_declared? hread hc, Loader.loadFile_of_declared? hread' hc', hversion.name]
    split
    · exact .ok hversion
    · exact .error _

end Jvm
