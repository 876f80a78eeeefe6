import Jvm.Proofs.Loader.LookUps

/-!
# The order of the roots

A look-up that goes beyond the cache tries the roots in order. `Gives` and `Fails` say what the file
under one root comes to: a class of the name that was asked for, or one of five kinds of failure. The
first root that gives a class decides, whatever failed before it and whatever comes after it; if no root
does, there is one cause for each, in their order.

The two kinds of look-up differ only where no root gives the class. `resolve` always reports the causes,
`tryResolve` only if one of them is more than the absence of a file. Main theorem `answers_of_uncached`.
-/

namespace Jvm

namespace Miss

/-- The misses of a search under these roots that failed for these causes. -/
def ofCauses (key : String) (roots : List String) (causes : List LoadFailure) : List Miss :=
  List.zipWith (fun root cause => ⟨root, Path.classFile root key, cause⟩) roots causes

/-- The reason that is given when a search fails: each path that was tried, with its cause. -/
theorem summary_ofCauses (key : String) {roots : List String} {causes : List LoadFailure}
    (h : roots.length = causes.length) :
    summary (ofCauses key roots causes) =
      if roots = [] then "classpath is empty"
      else "; ".intercalate
        (List.zipWith (fun root cause => Path.classFile root key ++ ": " ++ cause.message) roots causes) := by
  have hmessages : (ofCauses key roots causes).map message =
      List.zipWith (fun root cause => Path.classFile root key ++ ": " ++ cause.message) roots causes :=
    List.map_zipWith
  rw [summary, hmessages]
  cases roots with
  | nil => rfl
  | cons root rest =>
    cases causes with
    | nil => cases h
    | cons cause later => rfl

end Miss

namespace Loader

/-! ## One root -/

/-- The file for a name under a root reads, parses and builds, and the class it declares has this name. -/
def Gives (files : FileSystem) (key root : String) (c : Class) : Prop :=
  ∃ bytes file, files.read (Path.classFile root key) = .ok bytes ∧ ClassFile.parse bytes = .ok file ∧
    Class.ofFile file = .ok c ∧ c.name = key

/-- Why the file for a name under a root does not give the class. -/
inductive Fails (files : FileSystem) (key root : String) : LoadFailure → Prop
  | io {cause : IoError} : files.read (Path.classFile root key) = .error cause → Fails files key root (.io cause)
  | parse {bytes : Bytes} {cause : ParseError} : files.read (Path.classFile root key) = .ok bytes →
      ClassFile.parse bytes = .error cause → Fails files key root (.parse cause)
  | defect {bytes : Bytes} {file : ClassFile} {cause : Defect} : files.read (Path.classFile root key) = .ok bytes →
      ClassFile.parse bytes = .ok file → Class.ofFile file = .error cause → Fails files key root (.defect cause)
  | declares {bytes : Bytes} {file : ClassFile} {c : Class} : files.read (Path.classFile root key) = .ok bytes →
      ClassFile.parse bytes = .ok file → Class.ofFile file = .ok c → c.name ≠ key →
      Fails files key root (.declares c.name)

/-- The first of the roots to give a class gives `c`. -/
def FirstGives (files : FileSystem) (key : String) (roots : List String) (c : Class) : Prop :=
  ∃ before root after, roots = before ++ root :: after ∧ Gives files key root c ∧
    ∀ earlier ∈ before, ∀ d, ¬Gives files key earlier d

section
variable {files : FileSystem} {key root name : String} {roots : List String} {c : Class} {cause : LoadFailure}

theorem loadFile_of_gives (h : Gives files key root c) : loadFile files key (Path.classFile root key) = .ok c := by
  obtain ⟨bytes, file, hread, hparse, hclass, hname⟩ := h
  simp only [loadFile, hread, Except.mapError, bind, Except.bind, hparse, hclass, if_pos hname]
  rfl

theorem loadFile_of_fails (h : Fails files key root cause) :
    loadFile files key (Path.classFile root key) = .error cause := by
  cases h with
  | io hread => simp only [loadFile, hread, Except.mapError, bind, Except.bind]
  | parse hread hparse => simp only [loadFile, hread, hparse, Except.mapError, bind, Except.bind]
  | defect hread hparse hclass => simp only [loadFile, hread, hparse, hclass, Except.mapError, bind, Except.bind]
  | declares hread hparse hclass hname =>
    simp only [loadFile, hread, hparse, hclass, Except.mapError, bind, Except.bind, if_neg hname]
    rfl

/-- Each file gives the class or fails in one of these ways. -/
theorem gives_or_fails (files : FileSystem) (key root : String) :
    (∃ c, Gives files key root c) ∨ ∃ cause, Fails files key root cause := by
  cases hread : files.read (Path.classFile root key) with
  | error cause => exact .inr ⟨_, .io hread⟩
  | ok bytes =>
    cases hparse : ClassFile.parse bytes with
    | error cause => exact .inr ⟨_, .parse hread hparse⟩
    | ok file =>
      cases hclass : Class.ofFile file with
      | error cause => exact .inr ⟨_, .defect hread hparse hclass⟩
      | ok c =>
        by_cases hname : c.name = key
        · exact .inl ⟨c, bytes, file, hread, hparse, hclass, hname⟩
        · exact .inr ⟨_, .declares hread hparse hclass hname⟩

theorem loadFile_eq_ok_iff : loadFile files key (Path.classFile root key) = .ok c ↔ Gives files key root c := by
  refine ⟨fun h => ?_, loadFile_of_gives⟩
  rcases gives_or_fails files key root with ⟨d, hd⟩ | ⟨cause, hcause⟩
  · cases h.symm.trans (loadFile_of_gives hd)
    exact hd
  · cases h.symm.trans (loadFile_of_fails hcause)

theorem loadFile_eq_error_iff :
    loadFile files key (Path.classFile root key) = .error cause ↔ Fails files key root cause := by
  refine ⟨fun h => ?_, loadFile_of_fails⟩
  rcases gives_or_fails files key root with ⟨d, hd⟩ | ⟨cause', hcause⟩
  · cases h.symm.trans (loadFile_of_gives hd)
  · cases h.symm.trans (loadFile_of_fails hcause)
    exact hcause

/-- Only a file that is not there counts as absence. -/
theorem Fails.isAbsence_iff (h : Fails files key root cause) :
    cause.isAbsence = true ↔ files.read (Path.classFile root key) = .error .notFound := by
  cases h with
  | io hread =>
    rw [hread, LoadFailure.isAbsence, beq_iff_eq]
    simp
  | parse hread => simp [hread, LoadFailure.isAbsence]
  | defect hread => simp [hread, LoadFailure.isAbsence]
  | declares hread => simp [hread, LoadFailure.isAbsence]

/-! ## All roots -/

theorem toOption_loadFile_eq_none_iff :
    (loadFile files key (Path.classFile root key)).toOption = none ↔ ∀ c, ¬Gives files key root c := by
  cases h : loadFile files key (Path.classFile root key) with
  | ok c =>
    have hc := loadFile_eq_ok_iff.1 h
    simp only [Except.toOption, reduceCtorEq, false_iff, not_forall, not_not]
    exact ⟨c, hc⟩
  | error cause =>
    simp only [Except.toOption, true_iff]
    intro c hc
    cases h.symm.trans (loadFile_of_gives hc)

theorem fromRoots_eq_some_iff : fromRoots files roots key = some c ↔ FirstGives files key roots c := by
  rw [fromRoots, List.findSome?_eq_some_iff, FirstGives]
  refine exists_congr fun before => exists_congr fun root => exists_congr fun after => ?_
  refine and_congr_right fun _ => and_congr ?_ (forall₂_congr fun earlier _ => toOption_loadFile_eq_none_iff)
  rw [← loadFile_eq_ok_iff]
  cases loadFile files key (Path.classFile root key) <;> simp [Except.toOption]

/-- If no root gives the class, each has a cause, and the search has found just these. -/
theorem causes_of_fromRoots (h : fromRoots files roots key = none) :
    ∃ causes, List.Forall₂ (Fails files key) roots causes ∧
      (probe files key roots).1 = Miss.ofCauses key roots causes := by
  induction roots with
  | nil => exact ⟨[], .nil, rfl⟩
  | cons root rest ih =>
    rw [fromRoots, List.findSome?_cons] at h
    rw [probe]
    cases hload : loadFile files key (Path.classFile root key) with
    | ok c =>
      rw [hload] at h
      cases h
    | error cause =>
      rw [hload] at h
      obtain ⟨causes, hcauses, hmisses⟩ := ih h
      refine ⟨cause :: causes, .cons (loadFile_eq_error_iff.1 hload) hcauses, ?_⟩
      simp only [hmisses, Miss.ofCauses, List.zipWith_cons_cons]

/-- Where each root has a cause, no root gives the class. -/
theorem fromRoots_of_causes {causes : List LoadFailure} (h : List.Forall₂ (Fails files key) roots causes) :
    fromRoots files roots key = none := by
  induction h with
  | nil => rfl
  | cons hcause _ ih =>
    rw [fromRoots, List.findSome?_cons, loadFile_of_fails hcause]
    exact ih

/-- A root has one cause at most, so the causes are determined. -/
theorem causes_unique {causes causes' : List LoadFailure} (h : List.Forall₂ (Fails files key) roots causes)
    (h' : List.Forall₂ (Fails files key) roots causes') : causes' = causes := by
  induction h generalizing causes' with
  | nil =>
    cases h'
    rfl
  | cons hcause _ ih =>
    cases h' with
    | cons hcause' hrest' =>
      cases (loadFile_of_fails hcause).symm.trans (loadFile_of_fails hcause')
      rw [ih hrest']

theorem all_isAbsence_iff {causes : List LoadFailure} (h : List.Forall₂ (Fails files key) roots causes) :
    (Miss.ofCauses key roots causes).all (·.cause.isAbsence) = true ↔
      ∀ root ∈ roots, files.read (Path.classFile root key) = .error .notFound := by
  induction h with
  | nil => simp [Miss.ofCauses]
  | cons hcause _ ih =>
    simp only [Miss.ofCauses, List.zipWith_cons_cons, List.all_cons, Bool.and_eq_true, List.forall_mem_cons]
    exact and_congr hcause.isAbsence_iff ih

end

/-! ## The two look-ups -/

/-- Neither the cache nor a root has the class; `causes` says why, root by root. -/
structure Missing (files : FileSystem) (loader : Loader) (name : String) (causes : List LoadFailure) : Prop where
  uncached : loader.cached? (internalName name) = none
  causes : List.Forall₂ (Fails files (internalName name)) loader.roots causes

/-- How a look-up of a name that is missing for these causes is reported. -/
def missingError (loader : Loader) (name : String) (causes : List LoadFailure) : Error :=
  .classNotFound (internalName name) (Miss.ofCauses (internalName name) loader.roots causes)

section
variable {files : FileSystem} {loader : Loader} {name : String} {c : Class} {causes : List LoadFailure}

theorem Missing.search_eq (h : Missing files loader name causes) :
    (loader.search files (internalName name)).result =
        .error (Miss.ofCauses (internalName name) loader.roots causes) ∧
      (loader.search files (internalName name)).loader = loader := by
  have hnone := fromRoots_of_causes h.causes
  rcases search_of_uncached files h.uncached with ⟨c, hsome, -, -⟩ | ⟨-, hresult, hl⟩
  · cases hnone.symm.trans hsome
  · obtain ⟨causes', hcauses', hmisses⟩ := causes_of_fromRoots hnone
    cases causes_unique h.causes hcauses'
    exact ⟨by rw [hresult, hmisses], hl⟩

theorem Missing.resolve_eq (h : Missing files loader name causes) :
    (loader.resolve files name).result = .error (loader.missingError name causes) := by
  simp only [Loader.resolve, h.search_eq.1]
  rfl

theorem Missing.loader_resolve (h : Missing files loader name causes) : (loader.resolve files name).loader = loader :=
  h.search_eq.2

theorem Missing.tryResolve_of_absent (h : Missing files loader name causes)
    (habsent : ∀ root ∈ loader.roots, files.read (Path.classFile root (internalName name)) = .error .notFound) :
    (loader.tryResolve files name).result = .ok none := by
  simp only [Loader.tryResolve, h.search_eq.1, if_pos ((all_isAbsence_iff h.causes).2 habsent)]

theorem Missing.tryResolve_of_broken (h : Missing files loader name causes)
    (hbroken : ∃ root ∈ loader.roots, files.read (Path.classFile root (internalName name)) ≠ .error .notFound) :
    (loader.tryResolve files name).result = .error (loader.missingError name causes) := by
  have hsome : ¬(Miss.ofCauses (internalName name) loader.roots causes).all (·.cause.isAbsence) = true := by
    rw [all_isAbsence_iff h.causes]
    push Not
    exact hbroken
  simp only [Loader.tryResolve, h.search_eq.1, if_neg hsome]
  rfl

/-- A name that is not in the cache is given by a first root, or missing for some causes. -/
theorem first_or_missing (files : FileSystem) (h : loader.cached? (internalName name) = none) :
    (∃ c, FirstGives files (internalName name) loader.roots c) ∨ ∃ causes, Missing files loader name causes := by
  cases hroots : fromRoots files loader.roots (internalName name) with
  | some c => exact .inl ⟨c, fromRoots_eq_some_iff.1 hroots⟩
  | none =>
    obtain ⟨causes, hcauses, -⟩ := causes_of_fromRoots hroots
    exact .inr ⟨causes, h, hcauses⟩

theorem not_missing_of_first (h : FirstGives files (internalName name) loader.roots c) :
    ¬Missing files loader name causes := by
  intro hmissing
  cases (fromRoots_of_causes hmissing.causes).symm.trans (fromRoots_eq_some_iff.2 h)

theorem search_of_first (hcached : loader.cached? (internalName name) = none)
    (h : FirstGives files (internalName name) loader.roots c) :
    (loader.search files (internalName name)).result = .ok c ∧
      (loader.search files (internalName name)).loader =
        { loader with cache := (internalName name, c) :: loader.cache } := by
  rcases search_of_uncached files hcached with ⟨d, hd, hresult, hl⟩ | ⟨hnone, -, -⟩
  · cases hd.symm.trans (fromRoots_eq_some_iff.2 h)
    exact ⟨hresult, hl⟩
  · cases hnone.symm.trans (fromRoots_eq_some_iff.2 h)

theorem tryResolve_eq_some_iff :
    (loader.tryResolve files name).result = .ok (some c) ↔ (loader.resolve files name).result = .ok c := by
  have hsearch : (loader.tryResolve files name).result = .ok (some c) ↔
      (loader.search files (internalName name)).result = .ok c := LookUp.ask_eq_some_iff (.tryResolve name)
  rw [hsearch, Loader.resolve]
  cases (loader.search files (internalName name)).result <;> simp [Except.mapError]

end

/-- How both look-ups of a name end that is not in the cache. -/
structure Answers (files : FileSystem) (loader : Loader) (name : String) : Prop where
  /-- The first root that gives a class decides. -/
  first : ∀ c, (loader.resolve files name).result = .ok c ↔ FirstGives files (internalName name) loader.roots c
  /-- Without one, there is a cause for each root, in the order of the roots. -/
  missing : ∀ e, (loader.resolve files name).result = .error e ↔
    ∃ causes, List.Forall₂ (Fails files (internalName name)) loader.roots causes ∧
      e = .classNotFound (internalName name) (Miss.ofCauses (internalName name) loader.roots causes)
  /-- The reason that goes with the error. -/
  reason : ∀ causes, List.Forall₂ (Fails files (internalName name)) loader.roots causes →
    Miss.summary (Miss.ofCauses (internalName name) loader.roots causes) =
      if loader.roots = [] then "classpath is empty"
      else "; ".intercalate (List.zipWith
        (fun root cause => Path.classFile root (internalName name) ++ ": " ++ cause.message) loader.roots causes)
  /-- What is found is kept. -/
  kept : ∀ c, (loader.resolve files name).result = .ok c →
    (loader.resolve files name).loader = { loader with cache := (internalName name, c) :: loader.cache }
  /-- A search in vain changes nothing. -/
  unchanged : ∀ e, (loader.resolve files name).result = .error e → (loader.resolve files name).loader = loader
  /-- Both look-ups leave the same loader. -/
  sameLoader : (loader.tryResolve files name).loader = (loader.resolve files name).loader
  /-- Both find the same class. -/
  sameClass : ∀ c, (loader.tryResolve files name).result = .ok (some c) ↔ (loader.resolve files name).result = .ok c
  /-- A class is absent if no root has a file for it. -/
  absent : (loader.tryResolve files name).result = .ok none ↔
    ∀ root ∈ loader.roots, files.read (Path.classFile root (internalName name)) = .error .notFound
  /-- Otherwise a class that is not found is an error, and the same one. -/
  sameError : ∀ e, (loader.tryResolve files name).result = .error e ↔ (loader.resolve files name).result = .error e ∧
    ∃ root ∈ loader.roots, files.read (Path.classFile root (internalName name)) ≠ .error .notFound

section
variable {files : FileSystem} {loader : Loader} {name : String} {c : Class} {causes : List LoadFailure}

theorem Missing.answers (h : Missing files loader name causes) : Answers files loader name where
  first c := by
    rw [h.resolve_eq]
    exact ⟨nofun, fun hfirst => absurd h (not_missing_of_first hfirst)⟩
  missing e := by
    rw [h.resolve_eq]
    constructor
    · rintro ⟨⟩
      exact ⟨causes, h.causes, rfl⟩
    · rintro ⟨causes', hcauses', rfl⟩
      cases causes_unique h.causes hcauses'
      rfl
  reason causes' hcauses' := Miss.summary_ofCauses _ hcauses'.length_eq
  kept c hc := nomatch h.resolve_eq.symm.trans hc
  unchanged _ _ := h.loader_resolve
  sameLoader := rfl
  sameClass _ := tryResolve_eq_some_iff
  absent := by
    constructor
    · intro hnone
      by_contra hbroken
      push Not at hbroken
      cases hnone.symm.trans (h.tryResolve_of_broken hbroken)
    · exact h.tryResolve_of_absent
  sameError e := by
    constructor
    · intro he
      by_cases habsent : ∀ root ∈ loader.roots, files.read (Path.classFile root (internalName name)) = .error .notFound
      · cases he.symm.trans (h.tryResolve_of_absent habsent)
      · push Not at habsent
        cases he.symm.trans (h.tryResolve_of_broken habsent)
        exact ⟨h.resolve_eq, habsent⟩
    · rintro ⟨he, hbroken⟩
      cases he.symm.trans h.resolve_eq
      exact h.tryResolve_of_broken hbroken

theorem answers_of_first (hcached : loader.cached? (internalName name) = none)
    (h : FirstGives files (internalName name) loader.roots c) : Answers files loader name := by
  obtain ⟨hresult, hl⟩ := search_of_first hcached h
  have hresolve : (loader.resolve files name).result = .ok c := by
    simp only [Loader.resolve, hresult]
    rfl
  have htry := tryResolve_eq_some_iff.2 hresolve
  have hcauses : ∀ causes, ¬List.Forall₂ (Fails files (internalName name)) loader.roots causes :=
    fun _ hcauses => not_missing_of_first h ⟨hcached, hcauses⟩
  refine
    { first := fun d => ?_, missing := fun e => ?_, reason := fun causes hc => absurd hc (hcauses causes),
      kept := fun d hd => ?_, unchanged := fun e he => ?_, sameLoader := rfl,
      sameClass := fun _ => tryResolve_eq_some_iff, absent := ?_, sameError := fun e => ?_ }
  · rw [hresolve, ← fromRoots_eq_some_iff, fromRoots_eq_some_iff.2 h]
    simp
  · rw [hresolve]
    constructor
    · intro he
      cases he
    · rintro ⟨causes, hc, -⟩
      exact absurd hc (hcauses causes)
  · cases hresolve.symm.trans hd
    exact hl
  · cases hresolve.symm.trans he
  · rw [htry]
    constructor
    · intro hnone
      cases hnone
    · intro habsent
      obtain ⟨before, root, after, hroots, ⟨bytes, -, hread, -⟩, -⟩ := h
      have hmem : root ∈ loader.roots := by
        rw [hroots]
        simp
      cases hread.symm.trans (habsent root hmem)
  · rw [htry, hresolve]
    constructor
    · intro he
      cases he
    · rintro ⟨he, -⟩
      cases he

/-- **The order of the roots decides** what the look-ups of a name give that is not in the cache. -/
theorem answers_of_uncached (files : FileSystem) (h : loader.cached? (internalName name) = none) :
    Answers files loader name := by
  rcases first_or_missing files h with ⟨c, hfirst⟩ | ⟨causes, hmissing⟩
  · exact answers_of_first h hfirst
  · exact hmissing.answers

end

end Loader

/-! ### A file in the way -/

namespace Sample

/-- Under `p` there is a file that is no class file, under `r` the class `a/b`. -/
def overlaid : FileSystem := .ofRecord [("p/a/b.class", .ok [0x00]), ("r/a/b.class", .ok nestedFile)]

end Sample

/-- With nothing under `q`, the class is found behind the other file, is absent without the last two roots,
and is an error without the last one. -/
theorem answers_of_uncached_overlaid :
    (∃ c, Loader.FirstGives Sample.overlaid "a/b" ["q", "p", "r"] c ∧
      (Loader.tryResolve Sample.overlaid { roots := ["q", "p", "r"] } "a.b").result = .ok (some c)) ∧
      (Loader.tryResolve Sample.overlaid { roots := ["q"] } "a.b").result = .ok none ∧
      ∃ causes, List.Forall₂ (Loader.Fails Sample.overlaid "a/b") ["q", "p"] causes ∧
        (Loader.tryResolve Sample.overlaid { roots := ["q", "p"] } "a.b").result =
          .error (.classNotFound "a/b" (Miss.ofCauses "a/b" ["q", "p"] causes)) := by
  have hkey : internalName "a.b" = "a/b" := by decide +kernel
  have hbehind : Loader.Answers Sample.overlaid { roots := ["q", "p", "r"] } "a.b" :=
    Loader.answers_of_uncached Sample.overlaid rfl
  have habsent : Loader.Answers Sample.overlaid { roots := ["q"] } "a.b" :=
    Loader.answers_of_uncached Sample.overlaid rfl
  have hbroken : Loader.Answers Sample.overlaid { roots := ["q", "p"] } "a.b" :=
    Loader.answers_of_uncached Sample.overlaid rfl
  refine ⟨?_, ?_, ?_⟩
  · have hfound : (Loader.resolve Sample.overlaid { roots := ["q", "p", "r"] } "a.b").result.isOk = true := by
      decide +kernel
    cases hc : (Loader.resolve Sample.overlaid { roots := ["q", "p", "r"] } "a.b").result with
    | error e =>
      rw [hc] at hfound
      cases hfound
    | ok c => exact ⟨c, hkey ▸ (hbehind.first c).1 hc, (hbehind.sameClass c).2 hc⟩
  · rw [habsent.absent]
    decide +kernel
  · have hfailed : (Loader.resolve Sample.overlaid { roots := ["q", "p"] } "a.b").result.isOk = false := by
      decide +kernel
    cases he : (Loader.resolve Sample.overlaid { roots := ["q", "p"] } "a.b").result with
    | ok c =>
      rw [he] at hfailed
      cases hfailed
    | error e =>
      obtain ⟨causes, hcauses, rfl⟩ := (hbroken.missing e).1 he
      rw [hkey] at hcauses he
      exact ⟨causes, hcauses, (hbroken.sameError _).2 ⟨he, "p", by simp, by decide +kernel⟩⟩

end Jvm
