import Jvm.Proofs.Loader.Lineage

/-!
# What a reference stands for

`Resolves` says what a reference to a method stands for, by rules: one for each way in which a class and its
superclasses can settle it. There is no order of look-ups and no limit in it, and it asks one loader only,
the one from before the search.

`findMethod_eq_iff` says that the search gives just this. It gives nothing at all, and goes on for ever, where
no rule settles the reference (`findMethod_eq_unfinished_iff`).
-/

namespace Jvm.Loader

/-- What a class settles of a reference to a method, by itself or through its superclasses. -/
inductive Settles (files : FileSystem) (loader : Loader) (target : MemberRef) :
    Class → Except Error (Class × Method) → Prop
  /-- The class declares the method. -/
  | declares {c : Class} {method : Method} : c.method? target.name target.descriptor = some method →
      Settles files loader target c (.ok (c, method))
  /-- There is no superclass. -/
  | top {c : Class} : Lacks target c → c.superName = none →
      Settles files loader target c (.error (.methodNotFound target.owner target.name target.descriptor))
  /-- There is no file for the superclass. -/
  | absent {c : Class} {name : String} : Lacks target c → c.superName = some name →
      (loader.tryResolve files name).result = .ok none →
      Settles files loader target c (.error (.methodNotFound target.owner target.name target.descriptor))
  /-- The files for the superclass are of no use. -/
  | broken {c : Class} {name : String} {e : Error} : Lacks target c → c.superName = some name →
      (loader.tryResolve files name).result = .error e → Settles files loader target c (.error e)
  /-- The superclass settles it. -/
  | up {c parent : Class} {name : String} {result : Except Error (Class × Method)} : Lacks target c →
      c.superName = some name → (loader.tryResolve files name).result = .ok (some parent) →
      Settles files loader target parent result → Settles files loader target c result

/-- What a reference to a method stands for. -/
inductive Resolves (files : FileSystem) (loader : Loader) (target : MemberRef) :
    Except Error (Class × Method) → Prop
  /-- There is no such class. -/
  | noClass {e : Error} : (loader.resolve files target.owner).result = .error e →
      Resolves files loader target (.error e)
  | ofClass {c : Class} {result : Except Error (Class × Method)} :
      (loader.resolve files target.owner).result = .ok c → Settles files loader target c result →
      Resolves files loader target result

section
variable {files : FileSystem} {loader later : Loader} {target : MemberRef} {c owner : Class} {method : Method}
  {result : Except Error (Class × Method)}

theorem Settles.method?_eq (h : Settles files loader target c result) :
    ∀ owner method, result = .ok (owner, method) → owner.method? target.name target.descriptor = some method := by
  induction h with
  | declares hmethod =>
    rintro _ _ ⟨⟩
    exact hmethod
  | top | absent | broken => rintro _ _ ⟨⟩
  | up _ _ _ _ ih => exact ih

/-- The class that is given declares the method. -/
theorem Resolves.method?_eq (h : Resolves files loader target (.ok (owner, method))) :
    owner.method? target.name target.descriptor = some method := by
  cases h with
  | ofClass _ hsettles => exact hsettles.method?_eq _ _ rfl

/-! ## The search -/

/-- A search that ends has followed the rules. -/
theorem settles_of_climb {limit : Nat} (hahead : Ahead files loader later)
    (h : (climb files target limit c later).result = result.mapError .failed) :
    Settles files loader target c result := by
  induction limit generalizing c later with
  | zero => cases result <;> cases h
  | succ limit ih =>
    rw [climb] at h
    cases hmethod : c.method? target.name target.descriptor with
    | some method =>
      simp only [hmethod] at h
      cases result <;> cases h
      exact .declares hmethod
    | none =>
      cases hsuper : c.superName with
      | none =>
        simp only [hmethod, hsuper] at h
        cases result <;> cases h
        exact .top hmethod hsuper
      | some name =>
        simp only [hmethod, hsuper] at h
        cases hparent : (later.tryResolve files name).result with
        | error e =>
          simp only [hparent] at h
          rw [hahead.tryResolve_eq] at hparent
          cases result <;> cases h
          exact .broken hmethod hsuper hparent
        | ok parent =>
          cases parent with
          | none =>
            simp only [hparent] at h
            rw [hahead.tryResolve_eq] at hparent
            cases result <;> cases h
            exact .absent hmethod hsuper hparent
          | some parent =>
            simp only [hparent] at h
            rw [hahead.tryResolve_eq] at hparent
            exact .up hmethod hsuper hparent (ih (hahead.search (internalName name)) h)

/-- What the rules settle is found within some number of classes. -/
theorem Settles.climb (h : Settles files loader target c result) :
    ∃ limit, ∀ later, Ahead files loader later →
      (Loader.climb files target limit c later).result = result.mapError .failed := by
  induction h with
  | declares hmethod =>
    refine ⟨1, fun later _ => ?_⟩
    simp only [Loader.climb, hmethod]
    rfl
  | top hlacks hsuper =>
    refine ⟨1, fun later _ => ?_⟩
    simp only [Loader.climb, show _ = none from hlacks, hsuper]
    rfl
  | absent hlacks hsuper hparent =>
    refine ⟨1, fun later hahead => ?_⟩
    simp only [Loader.climb, show _ = none from hlacks, hsuper, hahead.tryResolve_eq, hparent]
    rfl
  | broken hlacks hsuper hparent =>
    refine ⟨1, fun later hahead => ?_⟩
    simp only [Loader.climb, show _ = none from hlacks, hsuper, hahead.tryResolve_eq, hparent]
    rfl
  | up hlacks hsuper hparent _ ih =>
    obtain ⟨limit, hrest⟩ := ih
    refine ⟨limit + 1, fun later hahead => ?_⟩
    rw [Loader.climb]
    simp only [show _ = none from hlacks, hsuper, hahead.tryResolve_eq, hparent]
    exact hrest _ (hahead.search _)

/-- **The search for a method** gives what the reference stands for. -/
theorem findMethod_eq_iff :
    (loader.findMethod files target).result = result.mapError .failed ↔ Resolves files loader target result := by
  have hahead : Ahead files loader (loader.resolve files target.owner).loader := (Ahead.refl files loader).search _
  constructor
  · intro h
    cases hc : (loader.resolve files target.owner).result with
    | error e =>
      simp only [findMethod, hc] at h
      cases result <;> cases h
      exact .noClass hc
    | ok c =>
      rw [findMethod_of_resolve hc] at h
      exact .ofClass hc (settles_of_climb hahead h)
  · intro h
    cases h with
    | noClass hc =>
      simp only [findMethod, hc]
      rfl
    | ofClass hc hsettles =>
      obtain ⟨limit, hclimb⟩ := hsettles.climb
      have hresult := hclimb _ hahead
      rw [← hresult]
      refine (findMethod_of_climb hc ?_).1
      rw [hresult]
      intro hunfinished
      cases result <;> cases hunfinished

theorem findMethod_eq_ok_iff :
    (loader.findMethod files target).result = .ok (owner, method) ↔
      Resolves files loader target (.ok (owner, method)) :=
  @findMethod_eq_iff files loader target (.ok (owner, method))

theorem findMethod_eq_failed_iff {e : Error} :
    (loader.findMethod files target).result = .error (.failed e) ↔ Resolves files loader target (.error e) :=
  @findMethod_eq_iff files loader target (.error e)

/-- It goes on for ever just where the reference stands for nothing, not even an error. -/
theorem findMethod_eq_unfinished_iff :
    (loader.findMethod files target).result = .error .unfinished ↔ ∀ result, ¬Resolves files loader target result := by
  constructor
  · intro h result hresolves
    rw [findMethod_eq_iff.2 hresolves] at h
    cases result <;> cases h
  · intro h
    cases hresult : (loader.findMethod files target).result with
    | ok found => exact absurd (findMethod_eq_ok_iff.1 hresult) (h _)
    | error stop =>
      cases stop with
      | failed e => exact absurd (findMethod_eq_failed_iff.1 hresult) (h _)
      | unfinished => rfl

end

end Jvm.Loader
