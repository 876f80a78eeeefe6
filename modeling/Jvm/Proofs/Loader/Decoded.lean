import Jvm.Loader
import Jvm.Proofs.Class

/-!
# Loaded classes have decoded code

The only way for a class to come into a machine is `Class.ofFile`, which decodes the code of each
method. So whatever a loader finds, in its cache or under its roots, has code that some byte string
decodes to.
-/

namespace Jvm

/-- Bytes that decode to it stand behind the code of a method. -/
def Method.Decoded (method : Method) : Prop :=
  ∀ code, method.code = some code → ∃ bytes, Code.decode bytes = .ok code

def Class.Decoded (c : Class) : Prop := ∀ method ∈ c.methods, method.Decoded

def Loader.Decoded (loader : Loader) : Prop := ∀ entry ∈ loader.cache, entry.2.Decoded

/-! ## From a class file -/

theorem Method.Body.decoded {attributes : AttributeTable} {maxStack maxLocals : UInt16} {code : Code}
    (h : Body attributes maxStack maxLocals (some code)) : ∃ bytes, Code.decode bytes = .ok code := by
  cases h with
  | code _ hdecode => exact ⟨_, hdecode⟩

theorem Method.DeclaredBy.decoded {pool : ConstantPool} {member : Member} {method : Method}
    (h : method.DeclaredBy pool member) : method.Decoded := by
  intro code hcode
  have hbody := h.body
  rw [hcode] at hbody
  exact hbody.decoded

theorem Class.decoded_ofFile {file : ClassFile} {c : Class} (h : ofFile file = .ok c) : c.Decoded := by
  intro method hmem
  obtain ⟨-, -, hmethods, -⟩ := exists_of_ofFile h
  obtain ⟨member, hmember⟩ := MethodTable.exists_member_of_mem hmethods hmem
  exact hmember.decoded

theorem Class.decoded_method? {c : Class} (hc : c.Decoded) {name descriptor : String} {method : Method}
    (h : c.method? name descriptor = some method) : method.Decoded := hc method (List.mem_of_find?_eq_some h)

/-! ## Through the loader -/

/-- The loader is left with decoded classes, and `p` holds of what it found. -/
def Loading.Decoded {ε α : Type} (done : Loading ε α) (p : α → Prop) : Prop :=
  done.loader.Decoded ∧ ∀ a, done.result = .ok a → p a

namespace Loader
variable {loader : Loader}

theorem decoded_of_loadFile {files : FileSystem} {name path : String} {c : Class}
    (h : loadFile files name path = .ok c) :
    c.Decoded := by
  obtain ⟨bytes, -, h⟩ := exists_of_bind_ok h
  obtain ⟨file, -, h⟩ := exists_of_bind_ok h
  obtain ⟨c', hclass, h⟩ := exists_of_bind_ok h
  split at h
  · cases h
    exact Class.decoded_ofFile (ok_of_mapError_ok hclass)
  · cases h

theorem decoded_of_probe {files : FileSystem} {name path : String} {c : Class} {roots : List String} {misses : List Miss}
    (h : probe files name roots = (misses, some (path, c))) : c.Decoded := by
  induction roots generalizing misses with
  | nil => cases h
  | cons root rest ih =>
    rw [probe] at h
    split at h
    · rename_i hload
      cases h
      exact decoded_of_loadFile hload
    · cases hrest : probe files name rest with
      | mk later found =>
        rw [hrest] at h
        cases h
        exact ih hrest

theorem decoded_cached? (hl : loader.Decoded) {name : String} {c : Class} (h : loader.cached? name = some c) :
    c.Decoded := by
  obtain ⟨l₁, l₂, hcache, -⟩ := List.lookup_eq_some_iff.1 h
  exact hl (name, c) (by rw [hcache]; simp)

theorem decoded_search (files : FileSystem) (hl : loader.Decoded) (name : String) :
    (loader.search files name).Decoded Class.Decoded := by
  unfold search
  split
  · rename_i c hcached
    refine ⟨hl, ?_⟩
    rintro _ ⟨⟩
    exact decoded_cached? hl hcached
  · cases hprobe : probe files name loader.roots with
    | mk misses found =>
      cases found with
      | none => exact ⟨hl, by simp⟩
      | some entry =>
        obtain ⟨path, c⟩ := entry
        have hc := decoded_of_probe hprobe
        refine ⟨fun entry hentry => ?_, ?_⟩
        · rcases List.mem_cons.1 hentry with rfl | hold
          · exact hc
          · exact hl entry hold
        · rintro _ ⟨⟩
          exact hc

theorem decoded_resolve (files : FileSystem) (hl : loader.Decoded) (name : String) :
    (loader.resolve files name).Decoded Class.Decoded := by
  obtain ⟨hloader, hresult⟩ := decoded_search files hl (internalName name)
  exact ⟨hloader, fun c h => hresult c (ok_of_mapError_ok h)⟩

theorem decoded_tryResolve (files : FileSystem) (hl : loader.Decoded) (name : String) :
    (loader.tryResolve files name).Decoded fun found => ∀ c, found = some c → c.Decoded := by
  obtain ⟨hloader, hresult⟩ := decoded_search files hl (internalName name)
  refine ⟨hloader, fun found h => ?_⟩
  unfold tryResolve at h
  simp only at h
  split at h
  · rename_i c hc
    cases h
    rintro _ ⟨⟩
    exact hresult c hc
  · split at h <;> cases h
    simp

/-- A method that was found has decoded code. -/
theorem decoded_climb {files : FileSystem} {target : MemberRef} {limit : Nat} {c : Class} (hc : c.Decoded)
    (hl : loader.Decoded) :
    (climb files target limit c loader).Decoded fun found => found.2.Decoded := by
  induction limit generalizing c loader with
  | zero => exact ⟨hl, by simp [climb]⟩
  | succ limit ih =>
    unfold climb
    simp only
    split
    · rename_i method hmethod
      refine ⟨hl, ?_⟩
      rintro _ ⟨⟩
      exact Class.decoded_method? hc hmethod
    · split
      · exact ⟨hl, by simp⟩
      · rename_i parent _
        obtain ⟨hloader, hresult⟩ := decoded_tryResolve files hl parent
        split
        · exact ⟨hloader, by simp⟩
        · exact ⟨hloader, by simp⟩
        · rename_i found hfound
          exact ih (hresult _ hfound _ rfl) hloader

theorem decoded_findMethod (files : FileSystem) (hl : loader.Decoded) (target : MemberRef) :
    (loader.findMethod files target).Decoded fun found => found.2.Decoded := by
  obtain ⟨hloader, hresult⟩ := decoded_resolve files hl target.owner
  unfold findMethod
  simp only
  split
  · exact ⟨hloader, by simp⟩
  · rename_i c hc
    exact decoded_climb (hresult c hc) hloader

end Loader

end Jvm
