import Jvm.Proofs.Loader.Cache

/-!
# The search through superclasses

A search for a method follows the names of superclasses and does not look out for a class that it
has met before. `ancestor?` is the walk without the method: the class so many steps further up, and
the loader after the look-ups on the way.

Main theorem `findMethod_ends_iff`: the search ends, with the method or with the error that says why
there is none, unless it meets a class twice before it meets the method; and then it never ends,
however far it goes. `circles_ouroboros` is a class file that makes it go round: a class that is its
own superclass.
-/

namespace Jvm

namespace Loader

/-! ## The walk -/

/-- The superclass of a class and the loader that has found it, if there is one to be found. -/
def superclass? (files : FileSystem) (loader : Loader) (c : Class) : Option (Class × Loader) :=
  match c.superName with
  | none => none
  | some name =>
    let found := loader.tryResolve files name
    match found.result with
    | .ok (some parent) => some (parent, found.loader)
    | _ => none

/-- Why there is no method, where a class without it has no superclass to be found. -/
def absence (files : FileSystem) (loader : Loader) (target : MemberRef) (c : Class) : Error :=
  match c.superName with
  | none => .methodNotFound target.owner target.name target.descriptor
  | some name =>
    match (loader.tryResolve files name).result with
    | .error e => e
    | .ok _ => .methodNotFound target.owner target.name target.descriptor

/-- The class `n` steps above a class, and the loader after so many look-ups. -/
def ancestor? (files : FileSystem) : (n : Nat) → Class → Loader → Option (Class × Loader)
  | 0, c, loader => some (c, loader)
  | n + 1, c, loader => loader.superclass? files c >>= fun (parent, later) => ancestor? files n parent later

/-- The class has no method of this name and descriptor. -/
def Lacks (target : MemberRef) (c : Class) : Prop := c.method? target.name target.descriptor = none

/-- On its way up from `c` a search meets a class for the second time, before it has met the method. -/
def Circles (files : FileSystem) (target : MemberRef) (c : Class) (loader : Loader) : Prop :=
  ∃ i j d later later', i < j ∧ ancestor? files i c loader = some (d, later) ∧
    ancestor? files j c loader = some (d, later') ∧
    ∀ k ≤ j, ∀ e between, ancestor? files k c loader = some (e, between) → Lacks target e

section
variable {files : FileSystem} {target : MemberRef} {loader later : Loader} {c parent : Class}

/-- The result of a search, one class at a time. -/
theorem climb_succ (files : FileSystem) (target : MemberRef) (limit : Nat) (c : Class) (loader : Loader) :
    (climb files target (limit + 1) c loader).result =
      match c.method? target.name target.descriptor with
      | some method => .ok (c, method)
      | none =>
        match loader.superclass? files c with
        | some (parent, later) => (climb files target limit parent later).result
        | none => .error (.failed (loader.absence files target c)) := by
  rw [climb, superclass?, absence]
  cases c.method? target.name target.descriptor with
  | some method => rfl
  | none =>
    cases c.superName with
    | none => rfl
    | some name =>
      simp only
      cases (loader.tryResolve files name).result with
      | error e => rfl
      | ok found => cases found <;> rfl

theorem ancestor?_succ (files : FileSystem) (n : Nat) (c : Class) (loader : Loader) :
    ancestor? files (n + 1) c loader =
      ancestor? files n c loader >>= fun (d, later) => later.superclass? files d := by
  induction n generalizing c loader with
  | zero =>
    simp only [ancestor?, Option.bind_eq_bind, Option.bind_some]
    cases loader.superclass? files c <;> rfl
  | succ n ih =>
    rw [ancestor?, ancestor?]
    cases loader.superclass? files c with
    | none => rfl
    | some next => exact ih next.1 next.2

theorem ancestor?_add (files : FileSystem) (m n : Nat) (c : Class) (loader : Loader) :
    ancestor? files (m + n) c loader =
      ancestor? files m c loader >>= fun (d, later) => ancestor? files n d later := by
  induction m generalizing c loader with
  | zero => rw [Nat.zero_add, ancestor?, Option.bind_eq_bind, Option.bind_some]
  | succ m ih =>
    rw [Nat.succ_add, ancestor?, ancestor?]
    cases loader.superclass? files c with
    | none => rfl
    | some next => exact ih next.1 next.2

/-- A search is unfinished after `n` classes iff all of them lack the method and have a superclass. -/
theorem climb_unfinished_iff (n : Nat) (c : Class) (loader : Loader) :
    (climb files target n c loader).result = .error .unfinished ↔
      ∀ i < n, ∃ d later, ancestor? files i c loader = some (d, later) ∧ Lacks target d ∧
        (later.superclass? files d).isSome = true := by
  induction n generalizing c loader with
  | zero => exact ⟨fun _ i hi => absurd hi (Nat.not_lt_zero i), fun _ => rfl⟩
  | succ n ih =>
    rw [climb_succ]
    constructor
    · intro h i hi
      cases hmethod : c.method? target.name target.descriptor with
      | some method =>
        rw [hmethod] at h
        cases h
      | none =>
        cases hnext : loader.superclass? files c with
        | none =>
          rw [hmethod, hnext] at h
          cases h
        | some next =>
          rw [hmethod, hnext] at h
          cases i with
          | zero => exact ⟨c, loader, rfl, hmethod, by rw [hnext]; rfl⟩
          | succ i =>
            obtain ⟨d, later, hd, hrest⟩ := (ih next.1 next.2).1 h i (Nat.lt_of_succ_lt_succ hi)
            refine ⟨d, later, ?_, hrest⟩
            rw [ancestor?, hnext]
            exact hd
    · intro h
      obtain ⟨d, later, hd, hlacks, hnext⟩ := h 0 (Nat.succ_pos n)
      cases hd
      obtain ⟨next, hnext⟩ := Option.isSome_iff_exists.1 hnext
      rw [hlacks, hnext]
      refine (ih next.1 next.2).2 fun i hi => ?_
      obtain ⟨d, later, hd, hrest⟩ := h (i + 1) (Nat.succ_lt_succ hi)
      rw [ancestor?, hnext] at hd
      exact ⟨d, later, hd, hrest⟩

/-- A search never ends iff every class on the way up is there and lacks the method. -/
theorem endless_iff (c : Class) (loader : Loader) :
    (∀ n, (climb files target n c loader).result = .error .unfinished) ↔
      ∀ n, ∃ d later, ancestor? files n c loader = some (d, later) ∧ Lacks target d := by
  constructor
  · intro h n
    obtain ⟨d, later, hd, hlacks, -⟩ := (climb_unfinished_iff (n + 1) c loader).1 (h (n + 1)) n (Nat.lt_succ_self n)
    exact ⟨d, later, hd, hlacks⟩
  · intro h n
    refine (climb_unfinished_iff n c loader).2 fun i _ => ?_
    obtain ⟨d, later, hd, hlacks⟩ := h i
    obtain ⟨e, latest, he, -⟩ := h (i + 1)
    rw [ancestor?_succ, hd] at he
    exact ⟨d, later, hd, hlacks, Option.isSome_iff_exists.2 ⟨_, he⟩⟩

/-! ## Walking in a circle -/

theorem tryResolve_of_cached {name : String} (h : loader.cached? (internalName name) = some c) :
    loader.tryResolve files name = { result := .ok (some c), loader } := by
  simp only [tryResolve, search, h]

/-- The look-up of a superclass leaves it in the cache, so that each later loader finds the same one
and has nothing to add. -/
theorem superclass?_of_extends {latest : Loader} (h : loader.superclass? files c = some (parent, later))
    (hlatest : later.Extends latest) :
    latest.superclass? files c = some (parent, latest) := by
  unfold superclass? at h ⊢
  cases hname : c.superName with
  | none =>
    rw [hname] at h
    cases h
  | some name =>
    rw [hname] at h
    cases hresult : (loader.tryResolve files name).result with
    | error e =>
      simp only [hresult] at h
      cases h
    | ok found =>
      cases found with
      | none =>
        simp only [hresult] at h
        cases h
      | some found =>
        simp only [hresult] at h
        cases h
        have hcached := hlatest.cached _ _ (cached_of_tryResolve hresult)
        simp only [tryResolve_of_cached hcached]

theorem extends_superclass? (h : loader.superclass? files c = some (parent, later)) : loader.Extends later := by
  unfold superclass? at h
  split at h
  · cases h
  · simp only at h
    split at h
    · cases h
      exact extends_search files loader _
    · cases h

theorem extends_ancestor? {n : Nat} {d : Class} (h : ancestor? files n c loader = some (d, later)) :
    loader.Extends later := by
  induction n generalizing c loader with
  | zero =>
    cases h
    exact .refl _
  | succ n ih =>
    obtain ⟨⟨parent, between⟩, hnext, hrest⟩ := Option.bind_eq_some_iff.1 h
    exact (extends_superclass? hnext).trans (ih hrest)

/-- The loader grows on the way up. -/
theorem extends_of_le {m n : Nat} {d e : Class} {latest : Loader} (hmn : m ≤ n)
    (hm : ancestor? files m c loader = some (d, later)) (hn : ancestor? files n c loader = some (e, latest)) :
    later.Extends latest := by
  obtain ⟨k, rfl⟩ := Nat.exists_eq_add_of_le hmn
  rw [ancestor?_add, hm] at hn
  exact extends_ancestor? hn

/-- What holds of a class and each superclass of one of which it holds, holds all the way up. -/
theorem exists_ancestor? {p : Class → Loader → Prop}
    (hp : ∀ c loader, p c loader → ∃ parent later, loader.superclass? files c = some (parent, later) ∧ p parent later)
    (hc : p c loader) (n : Nat) : ∃ d later, ancestor? files n c loader = some (d, later) ∧ p d later := by
  induction n generalizing c loader with
  | zero => exact ⟨c, loader, rfl, hc⟩
  | succ n ih =>
    obtain ⟨parent, later, hnext, hparent⟩ := hp c loader hc
    obtain ⟨d, latest, hd, hpd⟩ := ih hparent
    exact ⟨d, latest, by rw [ancestor?, hnext]; exact hd, hpd⟩

theorem exists_ancestor?_of_le {m n : Nat} {e : Class} (hmn : m ≤ n)
    (hn : ancestor? files n c loader = some (e, later)) :
    ∃ d between, ancestor? files m c loader = some (d, between) := by
  obtain ⟨k, rfl⟩ := Nat.exists_eq_add_of_le hmn
  rw [ancestor?_add] at hn
  obtain ⟨⟨d, between⟩, hd, -⟩ := Option.bind_eq_some_iff.1 hn
  exact ⟨d, between, hd⟩

/-- A search that meets a class again goes on for ever. -/
theorem Circles.endless (h : Circles files target c loader) (n : Nat) :
    (climb files target n c loader).result = .error .unfinished := by
  obtain ⟨i, j, d, later, latest, hij, hi, hj, hlacks⟩ := h
  -- From step `j` on the loader is `latest`, and the classes are those between the steps `i` and `j`.
  let onCircle (e : Class) (l : Loader) : Prop :=
    l = latest ∧ ∃ k between, i ≤ k ∧ k < j ∧ ancestor? files k c loader = some (e, between)
  have hround : ∀ e l, onCircle e l →
      ∃ parent next, l.superclass? files e = some (parent, next) ∧ onCircle parent next := by
    rintro e _ ⟨rfl, k, between, hik, hkj, hk⟩
    obtain ⟨parent, next, hnext⟩ := exists_ancestor?_of_le (Nat.succ_le_of_lt hkj) hj
    have hextends := extends_of_le (Nat.succ_le_of_lt hkj) hnext hj
    have habove := hnext
    rw [ancestor?_succ, hk] at habove
    refine ⟨parent, _, superclass?_of_extends habove hextends, rfl, ?_⟩
    rcases Nat.lt_or_ge (k + 1) j with hlt | hge
    · exact ⟨k + 1, next, by omega, hlt, hnext⟩
    · obtain rfl : k + 1 = j := by omega
      cases hnext.symm.trans hj
      exact ⟨i, later, Nat.le_refl i, hij, hi⟩
  have hstart : onCircle d latest := ⟨rfl, i, later, Nat.le_refl i, hij, hi⟩
  refine (endless_iff c loader).2 (fun k => ?_) n
  rcases Nat.lt_or_ge k j with hlt | hge
  · obtain ⟨e, between, he⟩ := exists_ancestor?_of_le (Nat.le_of_lt hlt) hj
    exact ⟨e, between, he, hlacks k (Nat.le_of_lt hlt) e between he⟩
  · obtain ⟨t, rfl⟩ := Nat.exists_eq_add_of_le hge
    obtain ⟨e, l, he, -, k, between, -, hkj, hk⟩ := exists_ancestor? hround hstart t
    exact ⟨e, l, by rw [ancestor?_add, hj]; exact he, hlacks k (Nat.le_of_lt hkj) e between hk⟩

/-- A class that is its own superclass makes a search for a method that it lacks go round. -/
theorem circles_of_self (files : FileSystem) {name : String} (hsuper : c.superName = some name)
    (hcached : loader.cached? (internalName name) = some c) (hlacks : Lacks target c) :
    Circles files target c loader := by
  have hnext : loader.superclass? files c = some (c, loader) := by
    simp only [superclass?, hsuper, tryResolve_of_cached hcached]
  have hway : ∀ k, ancestor? files k c loader = some (c, loader) := by
    intro k
    induction k with
    | zero => rfl
    | succ k ih =>
      rw [ancestor?, hnext]
      exact ih
  refine ⟨0, 1, c, loader, loader, Nat.zero_lt_one, hway 0, hway 1, fun k _ e between he => ?_⟩
  cases (hway k).symm.trans he
  exact hlacks

/-! ## Only finitely many classes -/

/-- The class that a file with these contents declares. -/
def declared? (bytes : Bytes) : Option Class :=
  match ClassFile.parse bytes with
  | .ok file => (Class.ofFile file).toOption
  | .error _ => none

/-- The classes in the cache and those that the files declare. -/
def available (files : FileSystem) (loader : Loader) : List Class :=
  loader.cache.map (·.2) ++ files.contents.filterMap declared?

theorem length_available_le (files : FileSystem) (loader : Loader) :
    (loader.available files).length ≤ loader.cache.length + files.contents.length := by
  simp only [available, List.length_append, List.length_map]
  exact Nat.add_le_add_left (List.length_filterMap_le _ _) _

theorem mem_of_cached? {name : String} (h : loader.cached? name = some c) : c ∈ loader.cache.map (·.2) := by
  obtain ⟨l₁, l₂, hcache, -⟩ := List.lookup_eq_some_iff.1 h
  rw [hcache]
  simp

theorem mem_of_loadFile {name path : String} (h : loadFile files name path = .ok c) :
    c ∈ files.contents.filterMap declared? := by
  obtain ⟨bytes, hread, h⟩ := exists_of_bind_ok h
  obtain ⟨file, hparse, h⟩ := exists_of_bind_ok h
  obtain ⟨c', hclass, h⟩ := exists_of_bind_ok h
  split at h
  · cases h
    refine List.mem_filterMap.2 ⟨bytes, files.mem_contents (ok_of_mapError_ok hread), ?_⟩
    rw [declared?, ok_of_mapError_ok hparse]
    simp only
    rw [ok_of_mapError_ok hclass]
    rfl
  · cases h

/-- A search adds to the cache only what was available. -/
theorem available_search (files : FileSystem) (loader : Loader) (name : String) :
    (∀ d ∈ (loader.search files name).loader.available files, d ∈ loader.available files) ∧
      ∀ c, (loader.search files name).result = .ok c → c ∈ loader.available files := by
  rcases search_cases files loader name with ⟨c, hc, hr, hl⟩ | ⟨c, path, -, hload, hr, hl⟩ | ⟨misses, -, hr, hl⟩
  · rw [hl, hr]
    refine ⟨fun d hd => hd, ?_⟩
    rintro _ ⟨⟩
    exact List.mem_append_left _ (mem_of_cached? hc)
  · have hmem : c ∈ loader.available files := List.mem_append_right _ (mem_of_loadFile hload)
    rw [hl, hr]
    refine ⟨fun d hd => ?_, ?_⟩
    · rcases List.mem_cons.1 hd with rfl | hd
      · exact hmem
      · exact hd
    · rintro _ ⟨⟩
      exact hmem
  · rw [hl, hr]
    exact ⟨fun d hd => hd, by simp⟩

theorem available_superclass? (h : loader.superclass? files c = some (parent, later)) :
    (∀ d ∈ later.available files, d ∈ loader.available files) ∧ parent ∈ loader.available files := by
  unfold superclass? at h
  split at h
  · cases h
  · rename_i name _
    simp only at h
    split at h
    · rename_i hresult
      cases h
      obtain ⟨hsubset, hmem⟩ := available_search files loader (internalName name)
      refine ⟨hsubset, hmem _ ?_⟩
      unfold tryResolve at hresult
      simp only at hresult
      split at hresult
      · cases hresult
        assumption
      · split at hresult <;> cases hresult
    · cases h

theorem available_ancestor? {pool : List Class} (hpool : ∀ d ∈ loader.available files, d ∈ pool) (hc : c ∈ pool)
    {n : Nat} {d : Class} (h : ancestor? files n c loader = some (d, later)) : d ∈ pool := by
  induction n generalizing c loader with
  | zero =>
    cases h
    exact hc
  | succ n ih =>
    obtain ⟨⟨parent, between⟩, hnext, hrest⟩ := Option.bind_eq_some_iff.1 h
    obtain ⟨hsubset, hparent⟩ := available_superclass? hnext
    exact ih (fun e he => hpool e (hsubset e he)) (hpool parent hparent) hrest

/-- A search that goes further than there are classes meets one again. -/
theorem circles_of_unfinished {pool : List Class} (hpool : ∀ d ∈ loader.available files, d ∈ pool) (hc : c ∈ pool)
    {n : Nat} (hn : pool.length < n) (h : (climb files target n c loader).result = .error .unfinished) :
    Circles files target c loader := by
  have hway := (climb_unfinished_iff n c loader).1 h
  have hclass : ∀ i, ∃ d, i < n → ∃ later, ancestor? files i c loader = some (d, later) := by
    intro i
    by_cases hi : i < n
    · obtain ⟨d, later, hd, -⟩ := hway i hi
      exact ⟨d, fun _ => ⟨later, hd⟩⟩
    · exact ⟨c, fun hlt => absurd hlt hi⟩
  choose walk hwalk using hclass
  obtain ⟨i, hi, j, hj, hne, hsame⟩ :
      ∃ i ∈ Finset.range n, ∃ j ∈ Finset.range n, i ≠ j ∧ walk i = walk j := by
    refine Finset.exists_ne_map_eq_of_card_lt_of_maps_to (t := pool.toFinset) ?_ fun i hi => ?_
    · rw [Finset.card_range]
      exact Nat.lt_of_le_of_lt (List.toFinset_card_le pool) hn
    · obtain ⟨later, hd⟩ := hwalk i (Finset.mem_range.1 hi)
      exact List.mem_toFinset.2 (available_ancestor? hpool hc hd)
  rw [Finset.mem_range] at hi hj
  have hlacks : ∀ k < n, ∀ e between, ancestor? files k c loader = some (e, between) → Lacks target e := by
    intro k hk e between he
    obtain ⟨d, later, hd, hlacks, -⟩ := hway k hk
    cases he.symm.trans hd
    exact hlacks
  obtain ⟨later, hfirst⟩ := hwalk i hi
  obtain ⟨later', hsecond⟩ := hwalk j hj
  rcases Nat.lt_or_gt_of_ne hne with hij | hji
  · rw [← hsame] at hsecond
    exact ⟨i, j, walk i, later, later', hij, hfirst, hsecond,
      fun k hk => hlacks k (Nat.lt_of_le_of_lt hk hj)⟩
  · rw [hsame] at hfirst
    exact ⟨j, i, walk j, later', later, hji, hsecond, hfirst,
      fun k hk => hlacks k (Nat.lt_of_le_of_lt hk hi)⟩

/-! ## How a search ends -/

/-- The results of a search that ends. -/
inductive Ends (target : MemberRef) : Except Stop (Class × Method) → Prop
  | found (owner : Class) (method : Method) : owner.method? target.name target.descriptor = some method →
      Ends target (.ok (owner, method))
  | methodNotFound : Ends target
      (.error (.failed (.methodNotFound target.owner target.name target.descriptor)))
  | classNotFound (name : String) (misses : List Miss) :
      Ends target (.error (.failed (.classNotFound name misses)))

theorem ends_absence (files : FileSystem) (loader : Loader) (target : MemberRef) (c : Class) :
    Ends target (.error (.failed (loader.absence files target c))) := by
  unfold absence
  split
  · exact .methodNotFound
  · rename_i name _
    unfold tryResolve
    simp only
    cases (loader.search files (internalName name)).result with
    | ok d => exact .methodNotFound
    | error misses =>
      simp only
      by_cases habsent : misses.all (·.cause.isAbsence) = true
      · rw [if_pos habsent]
        exact .methodNotFound
      · rw [if_neg habsent]
        exact .classNotFound _ _

theorem climb_ends (limit : Nat) (c : Class) (loader : Loader) :
    Ends target (climb files target limit c loader).result ∨
      (climb files target limit c loader).result = .error .unfinished := by
  induction limit generalizing c loader with
  | zero => exact .inr rfl
  | succ limit ih =>
    rw [climb_succ]
    cases hmethod : c.method? target.name target.descriptor with
    | some method => exact .inl (.found c method hmethod)
    | none =>
      cases loader.superclass? files c with
      | none => exact .inl (ends_absence files loader target c)
      | some next => exact ih next.1 next.2

theorem not_ends_unfinished : ¬Ends target (.error .unfinished) := nofun

theorem findMethod_of_resolve (h : (loader.resolve files target.owner).result = .ok c) :
    (loader.findMethod files target).result =
      (climb files target (climbLimit files loader) c (loader.resolve files target.owner).loader).result := by
  simp only [findMethod, h]

theorem findMethod_ends (files : FileSystem) (loader : Loader) (target : MemberRef) :
    Ends target (loader.findMethod files target).result ∨
      (loader.findMethod files target).result = .error .unfinished := by
  cases hc : (loader.resolve files target.owner).result with
  | error e =>
    obtain ⟨misses, -, rfl⟩ := exists_of_mapError_error hc
    simp only [findMethod, hc]
    exact .inl (.classNotFound _ misses)
  | ok c =>
    rw [findMethod_of_resolve hc]
    exact climb_ends _ c _

/-- The search for the method of a target goes round in a circle of superclasses. -/
def GoesRound (files : FileSystem) (loader : Loader) (target : MemberRef) : Prop :=
  ∃ c, (loader.resolve files target.owner).result = .ok c ∧
    Circles files target c (loader.resolve files target.owner).loader

/-- A search that goes past all classes there are is on a circle. -/
theorem circles_of_resolve {n : Nat} (hc : (loader.resolve files target.owner).result = .ok c)
    (hn : climbLimit files loader ≤ n)
    (h : (climb files target n c (loader.resolve files target.owner).loader).result = .error .unfinished) :
    Circles files target c (loader.resolve files target.owner).loader := by
  obtain ⟨hpool, hmem⟩ := available_search files loader (internalName target.owner)
  have hlength := length_available_le files loader
  unfold climbLimit at hn
  exact circles_of_unfinished hpool (hmem c (ok_of_mapError_ok hc)) (by omega) h

theorem goesRound_of_unfinished (h : (loader.findMethod files target).result = .error .unfinished) :
    GoesRound files loader target := by
  cases hc : (loader.resolve files target.owner).result with
  | error e =>
    simp only [findMethod, hc] at h
    cases h
  | ok c =>
    rw [findMethod_of_resolve hc] at h
    exact ⟨c, hc, circles_of_resolve hc (Nat.le_refl _) h⟩

/-- **The search for a method.** It ends, in the ways that there are, unless it goes round in a circle of
superclasses. There it never ends, however many classes it may look at. -/
theorem findMethod_ends_iff (files : FileSystem) (loader : Loader) (target : MemberRef) :
    (Ends target (loader.findMethod files target).result ↔ ¬GoesRound files loader target) ∧
      (GoesRound files loader target ↔ ∃ c, (loader.resolve files target.owner).result = .ok c ∧
        ∀ n, (climb files target n c (loader.resolve files target.owner).loader).result = .error .unfinished) := by
  refine ⟨⟨?_, ?_⟩, ?_, ?_⟩
  · rintro hends ⟨c, hc, hcircles⟩
    rw [findMethod_of_resolve hc, hcircles.endless] at hends
    exact not_ends_unfinished hends
  · intro hround
    exact (findMethod_ends files loader target).resolve_right fun hmore => hround (goesRound_of_unfinished hmore)
  · rintro ⟨c, hc, hcircles⟩
    exact ⟨c, hc, hcircles.endless⟩
  · rintro ⟨c, hc, hmore⟩
    exact ⟨c, hc, circles_of_resolve hc (Nat.le_refl _) (hmore _)⟩

end

end Loader

/-! ### A class that is its own superclass -/

namespace Sample

/-- The file of a class `A` that names itself as its superclass. Its `main` calls `A.nope()V`, which
does not exist. -/
def ouroboros : Bytes := [
  0xca, 0xfe, 0xba, 0xbe, 0x00, 0x00, 0x00, 0x34,
  -- the constants: the names, the class 2, and the method 9 of it
  0x00, 0x0a, 0x01, 0x00, 0x01, 0x41, 0x07, 0x00, 0x01, 0x01, 0x00, 0x04, 0x6d, 0x61, 0x69, 0x6e,
  0x01, 0x00, 0x16, 0x28, 0x5b, 0x4c, 0x6a, 0x61, 0x76, 0x61, 0x2f, 0x6c, 0x61, 0x6e, 0x67, 0x2f,
  0x53, 0x74, 0x72, 0x69, 0x6e, 0x67, 0x3b, 0x29, 0x56, 0x01, 0x00, 0x04, 0x43, 0x6f, 0x64, 0x65,
  0x01, 0x00, 0x04, 0x6e, 0x6f, 0x70, 0x65, 0x01, 0x00, 0x03, 0x28, 0x29, 0x56, 0x0c, 0x00, 0x06,
  0x00, 0x07, 0x0a, 0x00, 0x02, 0x00, 0x08,
  -- this class and its superclass
  0x00, 0x21, 0x00, 0x02, 0x00, 0x02, 0x00, 0x00, 0x00, 0x00,
  -- `main`
  0x00, 0x01, 0x00, 0x09, 0x00, 0x03, 0x00, 0x04, 0x00, 0x01, 0x00, 0x05, 0x00, 0x00, 0x00, 0x10,
  0x00, 0x00, 0x00, 0x01, 0x00, 0x00, 0x00, 0x04, 0xb8, 0x00, 0x09, 0xb1, 0x00, 0x00, 0x00, 0x00,
  0x00, 0x00]

/-- There is nothing but `ouroboros`. -/
def ouroborosFiles : FileSystem := .ofRecord [("r/A.class", .ok ouroboros)]

/-- Nothing is loaded yet. -/
def ouroborosLoader : Loader := { roots := ["r"] }

def nope : MemberRef := ⟨"A", "nope", "()V"⟩

end Sample

/-- The search for a method that a class lacks which is its own superclass. -/
theorem circles_ouroboros :
    ¬Loader.Ends Sample.nope (Loader.findMethod Sample.ouroborosFiles Sample.ouroborosLoader Sample.nope).result ∧
      ∃ c, (Loader.resolve Sample.ouroborosFiles Sample.ouroborosLoader Sample.nope.owner).result = .ok c ∧
        c.superName = some Sample.nope.owner ∧
        ∀ n, (Loader.climb Sample.ouroborosFiles Sample.nope n c
          (Loader.resolve Sample.ouroborosFiles Sample.ouroborosLoader Sample.nope.owner).loader).result =
            .error .unfinished := by
  have hread : (Loader.resolve Sample.ouroborosFiles Sample.ouroborosLoader Sample.nope.owner).result.map
      (fun c => (c.superName, c.method? Sample.nope.name Sample.nope.descriptor)) =
        .ok (some Sample.nope.owner, none) := by decide +kernel
  obtain ⟨c, hc, hread⟩ := exists_of_map_ok hread
  obtain ⟨hsuper, hlacks⟩ := Prod.mk.inj hread
  have hcircles := Loader.circles_of_self Sample.ouroborosFiles hsuper (Loader.cached_of_resolve hc) hlacks
  refine ⟨fun hends => ?_, c, hc, hsuper, hcircles.endless⟩
  rw [Loader.findMethod_of_resolve hc, hcircles.endless] at hends
  exact Loader.not_ends_unfinished hends

end Jvm
