import Jvm.Proofs.Loader.Cache
import Jvm.Proofs.Path

/-!
# Histories of look-ups

A host asks a loader for classes by any spelling of their names, while files come and go between the
look-ups. `Reliable` says what it can count on: the cache holds each class once, under its own name in
internal form; a class that is there is the answer from then on, whatever the files say; and a look-up
in vain leaves no trace.

`fromRoots` is what the roots have for a name, without the cache. One search is `search_of_cached` and
`search_of_uncached`, one look-up `Tidy.ask`, a history `tidy_afterLookUps`. Main theorem
`reliable_afterLookUps`.
-/

namespace Jvm

/-- Something that a host asks a loader for. -/
inductive LookUp where
  | resolve (name : String)
  | tryResolve (name : String)
deriving DecidableEq, Repr

namespace LookUp

/-- The name that is looked up, as the host spells it. -/
def name : LookUp → String
  | .resolve name => name
  | .tryResolve name => name

/-- The name that the class is kept under. -/
def key (lookUp : LookUp) : String := internalName lookUp.name

/-- Asks a loader. The answer is `none` for a class that may be absent and is. -/
def ask (files : FileSystem) (loader : Loader) : LookUp → Loading Error (Option Class)
  | .resolve name =>
    let found := loader.resolve files name
    { found with result := found.result.map some }
  | .tryResolve name => loader.tryResolve files name

end LookUp

namespace Loader

/-- The loader after look-ups, each with the files that it finds. -/
def afterLookUps : Loader → List (FileSystem × LookUp) → Loader
  | loader, [] => loader
  | loader, (files, lookUp) :: rest => (lookUp.ask files loader).loader.afterLookUps rest

/-- The class that the first root to have one gives. -/
def fromRoots (files : FileSystem) (roots : List String) (name : String) : Option Class :=
  roots.findSome? fun root => (loadFile files name (Path.classFile root name)).toOption

/-! ## One search -/

section
variable {loader : Loader} {files : FileSystem} {name : String} {c : Class}

theorem probe_snd (files : FileSystem) (name : String) (roots : List String) :
    (probe files name roots).2.map (·.2) = fromRoots files roots name := by
  induction roots with
  | nil => rfl
  | cons root rest ih =>
    rw [fromRoots, List.findSome?_cons, probe]
    cases loadFile files name (Path.classFile root name) with
    | ok c => rfl
    | error cause => exact ih

theorem search_of_cached (h : loader.cached? name = some c) :
    loader.search files name = { result := .ok c, loader } := by
  simp only [search, h]

/-- A search beyond the cache finds what the roots give and keeps it, or says where it has looked. -/
theorem search_of_uncached (files : FileSystem) (h : loader.cached? name = none) :
    (∃ c, fromRoots files loader.roots name = some c ∧ (loader.search files name).result = .ok c ∧
      (loader.search files name).loader = { loader with cache := (name, c) :: loader.cache }) ∨
    (fromRoots files loader.roots name = none ∧
      (loader.search files name).result = .error (probe files name loader.roots).1 ∧
      (loader.search files name).loader = loader) := by
  have hroots := probe_snd files name loader.roots
  cases hprobe : probe files name loader.roots with
  | mk misses found =>
    rw [hprobe] at hroots
    cases found with
    | none => exact .inr ⟨hroots.symm, by simp only [search, h, hprobe], by simp only [search, h, hprobe]⟩
    | some entry => exact .inl ⟨entry.2, hroots.symm, by simp only [search, h, hprobe],
        by simp only [search, h, hprobe]⟩

/-- What the roots give declares the name that was asked for. -/
theorem name_of_fromRoots {roots : List String} (h : fromRoots files roots name = some c) : c.name = name := by
  obtain ⟨root, -, hload⟩ := List.exists_of_findSome?_eq_some h
  cases hfile : loadFile files name (Path.classFile root name) with
  | error cause =>
    rw [hfile] at hload
    cases hload
  | ok d =>
    rw [hfile] at hload
    cases hload
    exact (declared_of_loadFile hfile).1

end

/-! ## One look-up -/

/-- A cache as it should be: one class for each key, which is its own name in internal form. -/
structure Tidy (loader : Loader) : Prop where
  distinct : (loader.cache.map (·.1)).Nodup
  internal : ∀ key c, (key, c) ∈ loader.cache → '.' ∉ key.toList
  named : ∀ key c, (key, c) ∈ loader.cache → c.name = key

end Loader

section
variable {loader : Loader} {files : FileSystem} {lookUp : LookUp} {c : Class}

theorem LookUp.loader_ask (files : FileSystem) (loader : Loader) (lookUp : LookUp) :
    (lookUp.ask files loader).loader = (loader.search files lookUp.key).loader := by
  cases lookUp <;> rfl

/-- Either kind of look-up gives a class exactly if the search does. -/
theorem LookUp.ask_eq_some_iff (lookUp : LookUp) :
    (lookUp.ask files loader).result = .ok (some c) ↔ (loader.search files lookUp.key).result = .ok c := by
  cases lookUp with
  | resolve name =>
    simp only [ask, Loader.resolve, key, LookUp.name]
    cases (loader.search files (internalName name)).result <;> simp [Except.mapError, Except.map]
  | tryResolve name =>
    simp only [ask, Loader.tryResolve, key, LookUp.name]
    cases (loader.search files (internalName name)).result with
    | ok d => simp
    | error misses =>
      simp only [reduceCtorEq, iff_false]
      split <;> simp

/-- What is in the cache is the answer to both kinds of look-up, and no file is read. -/
theorem LookUp.ask_of_cached (h : loader.cached? lookUp.key = some c) :
    lookUp.ask files loader = { result := .ok (some c), loader } := by
  cases lookUp with
  | resolve name =>
    simp only [ask, Loader.resolve, Loader.search_of_cached (show loader.cached? (internalName name) = some c from h)]
    rfl
  | tryResolve name =>
    simp only [ask, Loader.tryResolve,
      Loader.search_of_cached (show loader.cached? (internalName name) = some c from h)]

/-- Beyond the cache, a look-up gives what the roots have, which is then the one new entry; if they
have nothing, the loader is what it was. -/
theorem LookUp.ask_of_uncached (files : FileSystem) (h : loader.cached? lookUp.key = none) :
    (∃ c, Loader.fromRoots files loader.roots lookUp.key = some c ∧
      (lookUp.ask files loader).result = .ok (some c) ∧
      (lookUp.ask files loader).loader = { loader with cache := (lookUp.key, c) :: loader.cache }) ∨
    (Loader.fromRoots files loader.roots lookUp.key = none ∧
      (∀ c, (lookUp.ask files loader).result ≠ .ok (some c)) ∧ (lookUp.ask files loader).loader = loader) := by
  rw [loader_ask]
  rcases Loader.search_of_uncached files h with ⟨c, hroots, hresult, hl⟩ | ⟨hroots, hresult, hl⟩
  · exact .inl ⟨c, hroots, (ask_eq_some_iff lookUp).2 hresult, hl⟩
  · refine .inr ⟨hroots, fun c hc => ?_, hl⟩
    cases hresult.symm.trans ((ask_eq_some_iff lookUp).1 hc)

theorem LookUp.extends_ask (files : FileSystem) (loader : Loader) (lookUp : LookUp) :
    loader.Extends (lookUp.ask files loader).loader := by
  rw [loader_ask]
  exact Loader.extends_search files loader lookUp.key

end

namespace Loader

section
variable {loader : Loader} {key : String} {c : Class}

/-- The entries of a cache are what is found in it. -/
theorem mem_cache_of_cached? (h : loader.cached? key = some c) : (key, c) ∈ loader.cache := by
  obtain ⟨before, after, hcache, -⟩ := List.lookup_eq_some_iff.1 h
  rw [hcache]
  simp

theorem not_mem_keys_of_cached? (h : loader.cached? key = none) : key ∉ loader.cache.map (·.1) := by
  intro hmem
  obtain ⟨entry, hentry, rfl⟩ := List.mem_map.1 hmem
  have hne := List.lookup_eq_none_iff.1 h entry hentry
  simp at hne

theorem Tidy.fresh (roots : List String) : Tidy { roots } where
  distinct := List.nodup_nil
  internal := fun _ _ h => absurd h List.not_mem_nil
  named := fun _ _ h => absurd h List.not_mem_nil

/-- **One look-up** keeps the cache tidy. -/
theorem Tidy.ask (h : loader.Tidy) (files : FileSystem) (lookUp : LookUp) :
    (lookUp.ask files loader).loader.Tidy := by
  cases hcached : loader.cached? lookUp.key with
  | some c =>
    rw [LookUp.ask_of_cached hcached]
    exact h
  | none =>
    rcases LookUp.ask_of_uncached files hcached with ⟨c, hroots, -, hl⟩ | ⟨-, -, hl⟩
    · rw [hl]
      refine ⟨List.nodup_cons.2 ⟨not_mem_keys_of_cached? hcached, h.distinct⟩, ?_, ?_⟩
      · intro key d hmem
        rcases List.mem_cons.1 hmem with heq | hmem
        · cases heq
          exact dot_not_mem_internalName lookUp.name
        · exact h.internal key d hmem
      · intro key d hmem
        rcases List.mem_cons.1 hmem with heq | hmem
        · cases heq
          exact name_of_fromRoots hroots
        · exact h.named key d hmem
    · rw [hl]
      exact h

/-! ## Histories -/

theorem tidy_afterLookUps (h : loader.Tidy) (history : List (FileSystem × LookUp)) :
    (loader.afterLookUps history).Tidy := by
  induction history generalizing loader with
  | nil => exact h
  | cons asked rest ih => exact ih (h.ask asked.1 asked.2)

theorem extends_afterLookUps (loader : Loader) (history : List (FileSystem × LookUp)) :
    loader.Extends (loader.afterLookUps history) := by
  induction history generalizing loader with
  | nil => exact .refl loader
  | cons asked rest ih => exact (asked.2.extends_ask asked.1 loader).trans (ih _)

/-- What a host can count on, of a loader that it has used. -/
structure Reliable (loader : Loader) : Prop where
  tidy : loader.Tidy
  /-- Two names never share a class, also where they share a file. -/
  unaliased : ∀ key key' c, loader.cached? key = some c → loader.cached? key' = some c → key = key'
  /-- A class that is in the cache is the answer to every later look-up of its name, in any spelling
  and with any files. -/
  stable : ∀ key c, loader.cached? key = some c → ∀ later files (lookUp : LookUp), lookUp.key = key →
    lookUp.ask files (loader.afterLookUps later) =
      { result := .ok (some c), loader := loader.afterLookUps later }
  /-- A look-up in vain was of a name that is not in the cache, and it changes nothing. -/
  forgetful : ∀ files (lookUp : LookUp), (∀ c, (lookUp.ask files loader).result ≠ .ok (some c)) →
    loader.cached? lookUp.key = none ∧ (lookUp.ask files loader).loader = loader
  /-- A class that is not in the cache is found as soon as the roots have it. -/
  current : ∀ files (lookUp : LookUp) c, loader.cached? lookUp.key = none →
    fromRoots files loader.roots lookUp.key = some c → (lookUp.ask files loader).result = .ok (some c)
  /-- A class that is found beyond the cache is the one entry that is added. -/
  additive : ∀ files (lookUp : LookUp) c, loader.cached? lookUp.key = none →
    (lookUp.ask files loader).result = .ok (some c) →
      (lookUp.ask files loader).loader = { loader with cache := (lookUp.key, c) :: loader.cache }
  /-- A class that is found has the name that was asked for. -/
  named : ∀ files (lookUp : LookUp) c, (lookUp.ask files loader).result = .ok (some c) → c.name = lookUp.key

/-- All that a host can count on follows from the cache being tidy. -/
theorem Tidy.reliable (h : loader.Tidy) : loader.Reliable where
  tidy := h
  unaliased := by
    intro key key' c hc hc'
    rw [← h.named key c (mem_cache_of_cached? hc), ← h.named key' c (mem_cache_of_cached? hc')]
  stable := by
    intro key c hc later files lookUp hkey
    apply LookUp.ask_of_cached
    rw [hkey]
    exact (extends_afterLookUps loader later).cached key c hc
  forgetful := by
    intro files lookUp hvain
    cases hcached : loader.cached? lookUp.key with
    | some c =>
      rw [LookUp.ask_of_cached hcached] at hvain
      exact absurd rfl (hvain c)
    | none =>
      rcases LookUp.ask_of_uncached files hcached with ⟨c, -, hresult, -⟩ | ⟨-, -, hl⟩
      · exact absurd hresult (hvain c)
      · exact ⟨rfl, hl⟩
  current := by
    intro files lookUp c hcached hroots
    rcases LookUp.ask_of_uncached files hcached with ⟨d, hd, hresult, -⟩ | ⟨hnone, -, -⟩
    · cases hd.symm.trans hroots
      exact hresult
    · cases hnone.symm.trans hroots
  additive := by
    intro files lookUp c hcached hresult
    rcases LookUp.ask_of_uncached files hcached with ⟨d, -, hd, hl⟩ | ⟨-, hvain, -⟩
    · cases hd.symm.trans hresult
      exact hl
    · exact absurd hresult (hvain c)
  named := by
    intro files lookUp c hresult
    have hcached := cached_of_search ((LookUp.ask_eq_some_iff lookUp).1 hresult)
    rw [← LookUp.loader_ask] at hcached
    exact (h.ask files lookUp).named lookUp.key c (mem_cache_of_cached? hcached)

/-- **A loader is reliable** after every history of look-ups, whatever the files were like. -/
theorem reliable_afterLookUps (roots : List String) (history : List (FileSystem × LookUp)) :
    (({ roots } : Loader).afterLookUps history).roots = roots ∧
      (({ roots } : Loader).afterLookUps history).Reliable :=
  ⟨(extends_afterLookUps { roots } history).roots, (tidy_afterLookUps (.fresh roots) history).reliable⟩

end

end Loader

/-! ### Two spellings of one path -/

namespace Sample

/-- The file of a class `a/b` without methods. -/
def nestedFile : Bytes := [
  0xca, 0xfe, 0xba, 0xbe, 0x00, 0x00, 0x00, 0x34,
  0x00, 0x03, 0x01, 0x00, 0x03, 0x61, 0x2f, 0x62, 0x07, 0x00, 0x01,
  0x00, 0x21, 0x00, 0x02, 0x00, 0x00, 0x00, 0x00, 0x00, 0x00, 0x00, 0x00, 0x00, 0x00]

def nestedFiles : FileSystem := .ofRecord [("r/a/b.class", .ok nestedFile)]

/-- The class is looked up before its file is there, then by a name with an empty part, then by its own. -/
def spellings : List (FileSystem × LookUp) :=
  [(.ofRecord [], .resolve "a.b"), (nestedFiles, .tryResolve "a..b"), (nestedFiles, .resolve "a.b")]

end Sample

/-- The name with the empty part leads to the same file and is not the name of the class. -/
theorem reliable_afterLookUps_spellings :
    Path.classFile "r" "a//b" = Path.classFile "r" "a/b" ∧
      (({ roots := ["r"] } : Loader).afterLookUps Sample.spellings).cache.map (·.1) = ["a/b"] ∧
      ∃ c, c.name = "a/b" ∧ ∀ later files,
        LookUp.ask files ((({ roots := ["r"] } : Loader).afterLookUps Sample.spellings).afterLookUps later)
          (.tryResolve "a/b") =
            { result := .ok (some c)
              loader := (({ roots := ["r"] } : Loader).afterLookUps Sample.spellings).afterLookUps later } := by
  have hreliable := (Loader.reliable_afterLookUps ["r"] Sample.spellings).2
  have hsome : ((({ roots := ["r"] } : Loader).afterLookUps Sample.spellings).cached? "a/b").isSome = true := by
    decide +kernel
  obtain ⟨c, hc⟩ := Option.isSome_iff_exists.1 hsome
  refine ⟨by decide +kernel, by decide +kernel, c, ?_, fun later files => ?_⟩
  · exact hreliable.tidy.named "a/b" c (Loader.mem_cache_of_cached? hc)
  · exact hreliable.stable "a/b" c hc later files (.tryResolve "a/b") (by decide +kernel)

end Jvm
