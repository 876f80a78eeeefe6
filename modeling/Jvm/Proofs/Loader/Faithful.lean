import Jvm.Proofs.Loader.LookUps
import Jvm.Proofs.Loader.Superclasses

/-!
# What is cached makes no difference

As long as the files stay what they are, each class in the cache is what a search under the roots would
find: the loader is `Faithful` to the files. All such loaders with the same roots find the same, however
much they have loaded: a class (`resolve_congr`, `tryResolve_congr`) and a method through superclasses
(`findMethod_congr`).

How far a search through superclasses may go depends on the size of the cache. That makes no difference
either, since a search that ends does so before any of these limits (`findMethod_of_le`).
-/

namespace Jvm.Loader

/-- Each class in the cache is what the roots have under its name. -/
def Faithful (files : FileSystem) (loader : Loader) : Prop :=
  ∀ name c, loader.cached? name = some c → fromRoots files loader.roots name = some c

section
variable {files : FileSystem} {loader loader' : Loader} {target : MemberRef} {c : Class}

theorem faithful_of_empty (h : loader.cache = []) : Faithful files loader := by
  intro name c hc
  rw [cached?, h] at hc
  cases hc

theorem Faithful.search (h : Faithful files loader) (name : String) :
    Faithful files (loader.search files name).loader := by
  cases hcached : loader.cached? name with
  | some c =>
    rw [search_of_cached hcached]
    exact h
  | none =>
    rcases search_of_uncached files hcached with ⟨c, hroots, -, hl⟩ | ⟨-, -, hl⟩
    · rw [hl]
      intro other d hd
      rw [cached?_cons] at hd
      split at hd
      · rename_i heq
        cases hd
        rw [heq]
        exact hroots
      · exact h other d hd
    · rw [hl]
      exact h

/-! ## Classes -/

/-- A faithful loader finds what one without classes would find. -/
theorem Faithful.search_eq (h : Faithful files loader) (name : String) :
    (loader.search files name).result = (({ roots := loader.roots } : Loader).search files name).result := by
  have hfresh : ({ roots := loader.roots } : Loader).cached? name = none := rfl
  cases hcached : loader.cached? name with
  | some c =>
    rw [search_of_cached hcached]
    rcases search_of_uncached files hfresh with ⟨d, hroots, hresult, -⟩ | ⟨hroots, -, -⟩
    · cases hroots.symm.trans (h name c hcached)
      exact hresult.symm
    · cases hroots.symm.trans (h name c hcached)
  | none =>
    rcases search_of_uncached files hcached with ⟨c, hroots, hresult, -⟩ | ⟨hroots, hresult, -⟩ <;>
      rcases search_of_uncached files hfresh with ⟨d, hroots', hresult', -⟩ | ⟨hroots', hresult', -⟩
    · cases hroots.symm.trans hroots'
      rw [hresult, hresult']
    · cases hroots.symm.trans hroots'
    · cases hroots.symm.trans hroots'
    · rw [hresult, hresult']

/-- Two loaders with the same roots, each faithful to the files. -/
structure Agree (files : FileSystem) (loader loader' : Loader) : Prop where
  roots : loader'.roots = loader.roots
  faithful : Faithful files loader
  faithful' : Faithful files loader'

theorem Agree.search_congr (h : Agree files loader loader') (name : String) :
    (loader'.search files name).result = (loader.search files name).result := by
  rw [h.faithful'.search_eq, h.roots, h.faithful.search_eq]

theorem Agree.search (h : Agree files loader loader') (name : String) :
    Agree files (loader.search files name).loader (loader'.search files name).loader where
  roots := by rw [(extends_search files loader' name).roots, h.roots, (extends_search files loader name).roots]
  faithful := h.faithful.search name
  faithful' := h.faithful'.search name

theorem Agree.resolve_congr (h : Agree files loader loader') (name : String) :
    (loader'.resolve files name).result = (loader.resolve files name).result := by
  simp only [Loader.resolve, h.search_congr]

theorem Agree.resolve (h : Agree files loader loader') (name : String) :
    Agree files (loader.resolve files name).loader (loader'.resolve files name).loader :=
  h.search (internalName name)

theorem Agree.tryResolve_congr (h : Agree files loader loader') (name : String) :
    (loader'.tryResolve files name).result = (loader.tryResolve files name).result := by
  simp only [Loader.tryResolve, h.search_congr]

theorem Agree.tryResolve (h : Agree files loader loader') (name : String) :
    Agree files (loader.tryResolve files name).loader (loader'.tryResolve files name).loader :=
  h.search (internalName name)

/-! ## Methods -/

theorem Agree.climb_congr (h : Agree files loader loader') (limit : Nat) (c : Class) :
    (climb files target limit c loader').result = (climb files target limit c loader).result := by
  induction limit generalizing c loader loader' with
  | zero => rfl
  | succ limit ih =>
    unfold climb
    cases c.method? target.name target.descriptor with
    | some method => rfl
    | none =>
      cases c.superName with
      | none => rfl
      | some parent =>
        have hnext := h.tryResolve parent
        simp only [h.tryResolve_congr parent]
        cases (loader.tryResolve files parent).result with
        | error e => rfl
        | ok found =>
          cases found with
          | none => rfl
          | some found => exact ih hnext found

/-- A search that has ended goes no further when it may. -/
theorem climb_of_le {m n : Nat} (hmn : m ≤ n) (h : (climb files target m c loader).result ≠ .error .unfinished) :
    climb files target n c loader = climb files target m c loader := by
  induction m generalizing n c loader with
  | zero => exact absurd rfl h
  | succ m ih =>
    obtain ⟨n, rfl⟩ := Nat.exists_eq_add_one.2 (Nat.lt_of_lt_of_le m.succ_pos hmn)
    unfold climb at h ⊢
    cases hmethod : c.method? target.name target.descriptor with
    | some method => rfl
    | none =>
      cases hsuper : c.superName with
      | none => rfl
      | some parent =>
        simp only [hmethod, hsuper] at h ⊢
        cases hfound : (loader.tryResolve files parent).result with
        | error e => rfl
        | ok found =>
          cases found with
          | none => rfl
          | some found =>
            simp only [hfound] at h
            simp only [ih (Nat.le_of_succ_le_succ hmn) h]

/-- The limit of a search is no less than it takes: a search that may go further gives the same. -/
theorem findMethod_of_le {n : Nat} (hn : climbLimit files loader ≤ n)
    (hc : (loader.resolve files target.owner).result = .ok c) :
    (loader.findMethod files target).result =
      (climb files target n c (loader.resolve files target.owner).loader).result := by
  rw [findMethod_of_resolve hc]
  by_cases hmore : (climb files target (climbLimit files loader) c
      (loader.resolve files target.owner).loader).result = .error .unfinished
  · rw [hmore, (circles_of_resolve hc (Nat.le_refl _) hmore).endless]
  · rw [climb_of_le hn hmore]

/-- **Loaders that agree find the same methods.** -/
theorem Agree.findMethod_congr (h : Agree files loader loader') (target : MemberRef) :
    (loader'.findMethod files target).result = (loader.findMethod files target).result := by
  have hresolve := h.resolve_congr target.owner
  cases hc : (loader.resolve files target.owner).result with
  | error e =>
    rw [hc] at hresolve
    simp only [Loader.findMethod, hc, hresolve]
  | ok c =>
    rw [hc] at hresolve
    let n := max (climbLimit files loader) (climbLimit files loader')
    calc (loader'.findMethod files target).result
        _ = (climb files target n c (loader'.resolve files target.owner).loader).result :=
          findMethod_of_le (Nat.le_max_right _ _) hresolve
        _ = (climb files target n c (loader.resolve files target.owner).loader).result :=
          (h.resolve target.owner).climb_congr n c
        _ = (loader.findMethod files target).result := (findMethod_of_le (Nat.le_max_left _ _) hc).symm

theorem Faithful.findMethod (h : Faithful files loader) (target : MemberRef) :
    Faithful files (loader.findMethod files target).loader :=
  loader_of_findMethod (fun _ name hl => hl.search (internalName name))
    (fun _ name hl => hl.search (internalName name)) h

theorem Agree.findMethod (h : Agree files loader loader') (target : MemberRef) :
    Agree files (loader.findMethod files target).loader (loader'.findMethod files target).loader where
  roots := by
    rw [(extends_findMethod files loader' target).roots, h.roots, (extends_findMethod files loader target).roots]
  faithful := h.faithful.findMethod target
  faithful' := h.faithful'.findMethod target

end

end Jvm.Loader
