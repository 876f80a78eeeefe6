import Jvm.Proofs.Loader.Faithful
import Jvm.Proofs.Loader.Roots

/-!
# A class and its superclasses

A `Line` is the finite chain of superclasses above a class, as a loader has them or would load them, and
what it ends in: a class without a superclass, a superclass that no root has a file for, or one whose
files are of no use. The search for a method goes along this line and takes the first class that
declares the method. It looks up the classes up to that one and no further, and if there is none, the
end of the line decides which error it is.

The search looks classes up as it goes, but what it finds on the way makes no difference to the classes
further up: the loader gets `Ahead` of the one that it was, and gives the same answers (`Ahead.search_eq`).
Main theorem `findMethod_line`.
-/

namespace Jvm.Loader

/-! ## Chains -/

/-- What a chain of superclasses ends in. -/
inductive LineEnd where
  /-- The last class has no superclass. -/
  | top
  /-- No root has a file for the superclass of the last class. -/
  | absent
  /-- There are files for the superclass `name`, and none gives it. -/
  | broken (name : String) (causes : List LoadFailure)
deriving DecidableEq, Repr

/-- The superclasses above a class, nearest first, each with the name that it is kept under. -/
inductive Line (files : FileSystem) (loader : Loader) : Class → List (String × Class) → LineEnd → Prop
  | top {c : Class} : c.superName = none → Line files loader c [] .top
  | absent {c : Class} {name : String} : c.superName = some name → loader.cached? (internalName name) = none →
      (∀ root ∈ loader.roots, files.read (Path.classFile root (internalName name)) = .error .notFound) →
      Line files loader c [] .absent
  | broken {c : Class} {name : String} {causes : List LoadFailure} : c.superName = some name →
      Missing files loader name causes →
      (∃ root ∈ loader.roots, files.read (Path.classFile root (internalName name)) ≠ .error .notFound) →
      Line files loader c [] (.broken name causes)
  | up {c parent : Class} {name : String} {above : List (String × Class)} {ending : LineEnd} :
      c.superName = some name → (loader.resolve files name).result = .ok parent →
      Line files loader parent above ending → Line files loader c ((internalName name, parent) :: above) ending

/-- Why there is no method if no class of a line has it. -/
def LineEnd.error (loader : Loader) (target : MemberRef) : LineEnd → Error
  | .top | .absent => .methodNotFound target.owner target.name target.descriptor
  | .broken name causes => loader.missingError name causes

/-- Of the classes `visited`, `later` has in its cache those that `loader` had not, each once, and besides
only what `loader` had. -/
structure Gains (loader later : Loader) (visited : List (String × Class)) : Prop where
  roots : later.roots = loader.roots
  cache : ∃ gained, later.cache = gained ++ loader.cache ∧ (gained.map (·.1)).Nodup ∧
    ∀ key c, (key, c) ∈ gained ↔ (key, c) ∈ visited ∧ loader.cached? key = none

/-- How a search ends that has visited the classes `before` and goes on along `chain`: with the first
class that has the method, or at the end of the chain. -/
structure Follows (loader : Loader) (target : MemberRef) (before chain : List (String × Class)) (ending : LineEnd)
    (done : Loading Stop (Class × Method)) : Prop where
  ends : done.result ≠ .error .unfinished
  found : ∀ i key c method, chain[i]? = some (key, c) → c.method? target.name target.descriptor = some method →
    (∀ j < i, ∀ entry, chain[j]? = some entry → Lacks target entry.2) →
    done.result = .ok (c, method) ∧ loader.Gains done.loader (before ++ chain.take (i + 1))
  vain : (∀ entry ∈ chain, Lacks target entry.2) →
    done.result = .error (.failed (ending.error loader target)) ∧ loader.Gains done.loader (before ++ chain)

/-! ## What look-ups on the way change -/

/-- `later` has the classes of `loader`, and beyond these only what the roots have. -/
structure Ahead (files : FileSystem) (loader later : Loader) : Prop extends loader.Extends later where
  fresh : ∀ key c, later.cached? key = some c →
    loader.cached? key = some c ∨ fromRoots files loader.roots key = some c

section
variable {files : FileSystem} {loader later : Loader} {target : MemberRef} {key name : String} {c parent : Class}
  {visited : List (String × Class)} {causes : List LoadFailure}

theorem Ahead.refl (files : FileSystem) (loader : Loader) : Ahead files loader loader :=
  ⟨.refl loader, fun _ _ h => .inl h⟩

theorem Ahead.search (h : Ahead files loader later) (key : String) :
    Ahead files loader (later.search files key).loader := by
  refine ⟨h.toExtends.trans (extends_search files later key), ?_⟩
  cases hcached : later.cached? key with
  | some c =>
    rw [search_of_cached hcached]
    exact h.fresh
  | none =>
    rcases search_of_uncached files hcached with ⟨c, hroots, -, hl⟩ | ⟨-, -, hl⟩
    · rw [hl]
      intro other d hd
      rw [cached?_cons] at hd
      split at hd
      · rename_i heq
        cases hd
        rw [h.roots] at hroots
        exact .inr (heq ▸ hroots)
      · exact h.fresh other d hd
    · rw [hl]
      exact h.fresh

/-- Look-ups give the same answers as before. -/
theorem Ahead.search_eq (h : Ahead files loader later) (key : String) :
    (later.search files key).result = (loader.search files key).result := by
  cases hcached : loader.cached? key with
  | some c => rw [search_of_cached hcached, search_of_cached (h.cached key c hcached)]
  | none =>
    cases hlater : later.cached? key with
    | none =>
      rcases search_of_uncached files hcached with ⟨c, hroots, hresult, -⟩ | ⟨hroots, hresult, -⟩ <;>
        rcases search_of_uncached files hlater with ⟨d, hroots', hresult', -⟩ | ⟨hroots', hresult', -⟩ <;>
        rw [h.roots, hroots] at hroots' <;> cases hroots'
      · rw [hresult, hresult']
      · rw [hresult, hresult', h.roots]
    | some d =>
      have hroots : fromRoots files loader.roots key = some d :=
        (h.fresh key d hlater).resolve_left (by simp [hcached])
      rw [search_of_cached hlater]
      rcases search_of_uncached files hcached with ⟨c, hsome, hresult, -⟩ | ⟨hnone, -, -⟩
      · cases hsome.symm.trans hroots
        exact hresult.symm
      · cases hnone.symm.trans hroots

theorem Ahead.tryResolve_eq (h : Ahead files loader later) (name : String) :
    (later.tryResolve files name).result = (loader.tryResolve files name).result := by
  simp only [Loader.tryResolve, h.search_eq]

/-- What was missing is missing still. -/
theorem Ahead.missing (h : Ahead files loader later) (hmissing : Missing files loader name causes) :
    Missing files later name causes := by
  refine ⟨?_, by rw [h.roots]; exact hmissing.causes⟩
  cases hlater : later.cached? (internalName name) with
  | none => rfl
  | some c =>
    rcases h.fresh _ c hlater with hold | hroots
    · cases hmissing.uncached.symm.trans hold
    · cases (fromRoots_of_causes hmissing.causes).symm.trans hroots

theorem missing_of_absent (hcached : loader.cached? (internalName name) = none)
    (habsent : ∀ root ∈ loader.roots, files.read (Path.classFile root (internalName name)) = .error .notFound) :
    ∃ causes, Missing files loader name causes := by
  refine (first_or_missing files hcached).resolve_left ?_
  rintro ⟨c, before, root, after, hroots, ⟨bytes, file, hread, -⟩, -⟩
  have hmem : root ∈ loader.roots := by
    rw [hroots]
    simp
  cases hread.symm.trans (habsent root hmem)

theorem Gains.refl (loader : Loader) : Gains loader loader [] := ⟨rfl, [], rfl, List.nodup_nil, by simp⟩

/-- One more class is looked up and found. -/
theorem Gains.search (h : Gains loader later visited) (hfound : (later.search files key).result = .ok c) :
    Gains loader (later.search files key).loader (visited ++ [(key, c)]) := by
  obtain ⟨hroots, gained, hcache, hdistinct, hmem⟩ := h
  have hlookup : later.cached? key = (gained.lookup key).or (loader.cached? key) := by
    rw [cached?, hcache, List.lookup_append]
    rfl
  refine ⟨(extends_search files later key).roots.trans hroots, ?_⟩
  cases hcached : later.cached? key with
  | some d =>
    rw [search_of_cached hcached] at hfound ⊢
    cases hfound
    refine ⟨gained, hcache, hdistinct, fun other d => ?_⟩
    rw [hmem, List.mem_append, List.mem_singleton]
    refine and_congr_left fun hnone => ⟨.inl, ?_⟩
    rintro (hold | heq)
    · exact hold
    · -- what is in the cache now and was not there is among what was gained
      cases heq
      rw [hlookup, hnone, Option.or_none] at hcached
      obtain ⟨front, back, hgained, -⟩ := List.lookup_eq_some_iff.1 hcached
      have hin : (key, c) ∈ gained := by
        rw [hgained]
        simp
      exact ((hmem key c).1 hin).1
  | none =>
    rw [hcached, eq_comm, Option.or_eq_none_iff] at hlookup
    rcases search_of_uncached files hcached with ⟨d, -, hresult, hl⟩ | ⟨-, hresult, -⟩
    · cases hresult.symm.trans hfound
      rw [hl]
      refine ⟨(key, c) :: gained, by simp only [hcache, List.cons_append], ?_, fun other d => ?_⟩
      · rw [List.map_cons, List.nodup_cons]
        refine ⟨fun hin => ?_, hdistinct⟩
        obtain ⟨entry, hentry, rfl⟩ := List.mem_map.1 hin
        have hne := List.lookup_eq_none_iff.1 hlookup.1 entry hentry
        simp at hne
      · rw [List.mem_cons, hmem, List.mem_append, List.mem_singleton]
        constructor
        · rintro (heq | ⟨hold, hnone⟩)
          · cases heq
            exact ⟨.inr rfl, hlookup.2⟩
          · exact ⟨.inl hold, hnone⟩
        · rintro ⟨hold | heq, hnone⟩
          · exact .inr ⟨hold, hnone⟩
          · exact .inl heq
    · cases hresult.symm.trans hfound

end

/-! ## Along the chain -/

section
variable {files : FileSystem} {loader later : Loader} {target : MemberRef} {key : String} {c : Class}
  {before chain above : List (String × Class)} {ending : LineEnd} {done : Loading Stop (Class × Method)}

/-- The class at hand has the method. -/
theorem Follows.of_method {method : Method} (hgains : loader.Gains later (before ++ [(key, c)]))
    (hmethod : c.method? target.name target.descriptor = some method) :
    Follows loader target before ((key, c) :: above) ending { result := .ok (c, method), loader := later } where
  ends := nofun
  found := by
    intro i other d found hd hfound hlacks
    cases i with
    | zero =>
      cases hd
      cases hmethod.symm.trans hfound
      exact ⟨rfl, hgains⟩
    | succ i => cases hmethod.symm.trans (hlacks 0 i.succ_pos (key, c) rfl)
  vain hlacks := by cases hmethod.symm.trans (hlacks (key, c) List.mem_cons_self)

/-- The class at hand is the last one. -/
theorem Follows.of_end (hgains : loader.Gains later (before ++ [(key, c)])) (hlacks : Lacks target c)
    (hresult : done.result = .error (.failed (ending.error loader target))) (hloader : done.loader = later) :
    Follows loader target before [(key, c)] ending done where
  ends := by simp [hresult]
  found := by
    intro i other d found hd hfound _
    cases i with
    | zero =>
      cases hd
      cases hlacks.symm.trans hfound
    | succ i => cases hd
  vain _ := ⟨hresult, hloader ▸ hgains⟩

/-- The class at hand lacks the method, and the search goes on with its superclass. -/
theorem Follows.cons (h : Follows loader target (before ++ [(key, c)]) chain ending done) (hlacks : Lacks target c) :
    Follows loader target before ((key, c) :: chain) ending done where
  ends := h.ends
  found := by
    intro i other d method hd hmethod hbelow
    cases i with
    | zero =>
      cases hd
      cases hlacks.symm.trans hmethod
    | succ i =>
      have hrest := h.found i other d method hd hmethod fun j hj => hbelow (j + 1) (Nat.succ_lt_succ hj)
      rwa [List.append_assoc] at hrest
  vain hall := by
    have hrest := h.vain fun entry hentry => hall entry (List.mem_cons_of_mem _ hentry)
    rwa [List.append_assoc] at hrest

/-- Only a class that lacks the method needs a closer look. -/
theorem Follows.of_lacks {limit : Nat} (hgains : loader.Gains later (before ++ [(key, c)]))
    (h : Lacks target c →
      Follows loader target before ((key, c) :: above) ending (climb files target (limit + 1) c later)) :
    Follows loader target before ((key, c) :: above) ending (climb files target (limit + 1) c later) := by
  cases hmethod : c.method? target.name target.descriptor with
  | some method =>
    simp only [climb, hmethod]
    exact .of_method hgains hmethod
  | none => exact h hmethod

/-- **The search goes along the line**, from the class that it has just looked up. -/
theorem climb_line (h : Line files loader c above ending) {limit : Nat} (hahead : Ahead files loader later)
    (hgains : loader.Gains later (before ++ [(key, c)])) (hlimit : above.length ≤ limit) :
    Follows loader target before ((key, c) :: above) ending (climb files target (limit + 1) c later) := by
  induction h generalizing later before key limit with
  | top hsuper =>
    refine .of_lacks hgains fun hlacks => .of_end hgains hlacks ?_ ?_ <;>
      simp only [climb, show _ = none from hlacks, hsuper]
    rfl
  | absent hsuper hcached habsent =>
    obtain ⟨causes, hmissing⟩ := missing_of_absent hcached habsent
    refine .of_lacks hgains fun hlacks => .of_end hgains hlacks ?_ ?_ <;>
      simp only [climb, show _ = none from hlacks, hsuper, hahead.tryResolve_eq, hmissing.tryResolve_of_absent habsent]
    · rfl
    · exact (hahead.missing hmissing).loader_resolve
  | broken hsuper hmissing hbroken =>
    refine .of_lacks hgains fun hlacks => .of_end hgains hlacks ?_ ?_ <;>
      simp only [climb, show _ = none from hlacks, hsuper, hahead.tryResolve_eq, hmissing.tryResolve_of_broken hbroken]
    · rfl
    · exact (hahead.missing hmissing).loader_resolve
  | @up c parent name above ending hsuper hparent _ ih =>
    refine .of_lacks hgains fun hlacks => ?_
    obtain ⟨limit, rfl⟩ := Nat.exists_eq_add_one.2 (Nat.zero_lt_of_lt hlimit)
    have hfound : (later.search files (internalName name)).result = .ok parent :=
      (hahead.search_eq _).trans (ok_of_mapError_ok hparent)
    have hrest := ih (hahead.search (internalName name)) (hgains.search hfound) (Nat.le_of_succ_le_succ hlimit)
    have hfollows := hrest.cons hlacks
    rw [climb]
    simp only [show _ = none from hlacks, hsuper, hahead.tryResolve_eq, tryResolve_eq_some_iff.2 hparent]
    exact ⟨hfollows.ends, hfollows.found, hfollows.vain⟩

/-- A search that ends within some number of classes ends in the same way within its own limit. -/
theorem findMethod_of_climb {n : Nat} (hc : (loader.resolve files target.owner).result = .ok c)
    (h : (climb files target n c (loader.resolve files target.owner).loader).result ≠ .error .unfinished) :
    (loader.findMethod files target).result =
        (climb files target n c (loader.resolve files target.owner).loader).result ∧
      (loader.findMethod files target).loader =
        (climb files target n c (loader.resolve files target.owner).loader).loader := by
  let m := max n (climbLimit files loader)
  have hn := climb_of_le (n := m) (Nat.le_max_left _ _) h
  have hresult := findMethod_of_le (n := m) (Nat.le_max_right _ _) hc
  have hlimit : (climb files target (climbLimit files loader) c
      (loader.resolve files target.owner).loader).result ≠ .error .unfinished := by
    rw [← findMethod_of_resolve hc, hresult, hn]
    exact h
  rw [← hn, climb_of_le (n := m) (Nat.le_max_right _ _) hlimit]
  simp only [findMethod, hc, and_self]

/-- **The search for a method** along a finite line of superclasses. The first class of the line that
declares the method gives it, and the search has looked up the classes up to this one; if none does, it
has looked up all of them, and the end of the line says which error it is. If the class that was asked
for is itself missing, that is the error. -/
theorem findMethod_line (files : FileSystem) (loader : Loader) (target : MemberRef) :
    (∀ c above ending, (loader.resolve files target.owner).result = .ok c → Line files loader c above ending →
      Follows loader target [] ((internalName target.owner, c) :: above) ending (loader.findMethod files target)) ∧
      ∀ causes, Missing files loader target.owner causes →
        (loader.findMethod files target).result = .error (.failed (loader.missingError target.owner causes)) ∧
          (loader.findMethod files target).loader = loader := by
  refine ⟨fun c above ending hc hline => ?_, fun causes hmissing => ?_⟩
  · have hahead : Ahead files loader (loader.resolve files target.owner).loader := (Ahead.refl files loader).search _
    have hgains : loader.Gains (loader.resolve files target.owner).loader ([] ++ [(internalName target.owner, c)]) :=
      (Gains.refl loader).search (ok_of_mapError_ok hc)
    have hfollows : Follows loader target [] ((internalName target.owner, c) :: above) ending
        (climb files target (above.length + 1) c (loader.resolve files target.owner).loader) :=
      climb_line hline hahead hgains (Nat.le_refl _)
    obtain ⟨hresult, hloader⟩ := findMethod_of_climb hc hfollows.ends
    refine ⟨?_, ?_, ?_⟩
    · rw [hresult]
      exact hfollows.ends
    · rw [hresult, hloader]
      exact hfollows.found
    · rw [hresult, hloader]
      exact hfollows.vain
  · simp only [findMethod, hmissing.resolve_eq, hmissing.loader_resolve, and_self]

end

end Jvm.Loader

/-! ### A method in the superclass, and a file in the way further up -/

namespace Jvm.Sample

/-- The file of a class `L` with the superclass `M`. -/
def lowerFile : Bytes := [
  0xca, 0xfe, 0xba, 0xbe, 0x00, 0x00, 0x00, 0x34,
  0x00, 0x05, 0x01, 0x00, 0x01, 0x4c, 0x07, 0x00, 0x01, 0x01, 0x00, 0x01, 0x4d, 0x07, 0x00, 0x03,
  0x00, 0x21, 0x00, 0x02, 0x00, 0x04, 0x00, 0x00, 0x00, 0x00, 0x00, 0x00, 0x00, 0x00]

/-- The file of `M`, which has a method `f()V` and the superclass `N`. -/
def middleFile : Bytes := [
  0xca, 0xfe, 0xba, 0xbe, 0x00, 0x00, 0x00, 0x34,
  0x00, 0x08, 0x01, 0x00, 0x01, 0x4d, 0x07, 0x00, 0x01, 0x01, 0x00, 0x01, 0x4e, 0x07, 0x00, 0x03,
  0x01, 0x00, 0x01, 0x66, 0x01, 0x00, 0x03, 0x28, 0x29, 0x56, 0x01, 0x00, 0x04, 0x43, 0x6f, 0x64, 0x65,
  0x00, 0x21, 0x00, 0x02, 0x00, 0x04, 0x00, 0x00, 0x00, 0x00, 0x00, 0x01,
  0x00, 0x09, 0x00, 0x05, 0x00, 0x06, 0x00, 0x01, 0x00, 0x07, 0x00, 0x00, 0x00, 0x0d, 0x00, 0x00,
  0x00, 0x00, 0x00, 0x00, 0x00, 0x01, 0xb1, 0x00, 0x00, 0x00, 0x00,
  0x00, 0x00]

/-- The file of `N` is no class file. -/
def lineFiles : FileSystem := .ofRecord [
  ("r/L.class", .ok lowerFile), ("r/M.class", .ok middleFile), ("r/N.class", .ok [0x00])]

end Jvm.Sample

namespace Jvm

/-- `f` is found in `M`, and `N` is not looked up; the search for `g` fails at `N`. -/
theorem findMethod_line_middle :
    ∃ lower middle f, Loader.Line Sample.lineFiles { roots := ["r"] } lower [("M", middle)]
        (.broken "N" [.parse .truncated]) ∧
      (Loader.findMethod Sample.lineFiles { roots := ["r"] } ⟨"L", "f", "()V"⟩).result = .ok (middle, f) ∧
      Loader.Gains { roots := ["r"] } (Loader.findMethod Sample.lineFiles { roots := ["r"] } ⟨"L", "f", "()V"⟩).loader
        [("L", lower), ("M", middle)] ∧
      (Loader.findMethod Sample.lineFiles { roots := ["r"] } ⟨"L", "g", "()V"⟩).result =
        .error (.failed (.classNotFound "N" [⟨"r", "r/N.class", .parse .truncated⟩])) := by
  have hlower : (Loader.resolve Sample.lineFiles { roots := ["r"] } "L").result.map
      (fun c => (c.superName, c.method? "f" "()V", c.method? "g" "()V")) = .ok (some "M", none, none) := by decide +kernel
  have hmiddle : (Loader.resolve Sample.lineFiles { roots := ["r"] } "M").result.map
      (fun c => (c.superName, (c.method? "f" "()V").isSome, c.method? "g" "()V")) = .ok (some "N", true, none) := by decide +kernel
  obtain ⟨lower, hlower, hread⟩ := exists_of_map_ok hlower
  obtain ⟨middle, hmiddle, hread'⟩ := exists_of_map_ok hmiddle
  simp only [Prod.mk.injEq] at hread hread'
  obtain ⟨hsuper, hlacksf, hlacksg⟩ := hread
  obtain ⟨hsuper', hf, hlacksg'⟩ := hread'
  obtain ⟨f, hf⟩ := Option.isSome_iff_exists.1 hf
  have hN : Loader.Fails Sample.lineFiles "N" "r" (.parse .truncated) :=
    Loader.loadFile_eq_error_iff.1 (by decide +kernel)
  have hline : Loader.Line Sample.lineFiles { roots := ["r"] } lower [("M", middle)]
      (.broken "N" [.parse .truncated]) :=
    .up hsuper hmiddle (.broken hsuper' ⟨by decide +kernel, .cons hN .nil⟩ ⟨"r", by simp, by decide +kernel⟩)
  have hfollowsf := (Loader.findMethod_line Sample.lineFiles { roots := ["r"] } ⟨"L", "f", "()V"⟩).1
    lower _ _ hlower hline
  have hfollowsg := (Loader.findMethod_line Sample.lineFiles { roots := ["r"] } ⟨"L", "g", "()V"⟩).1
    lower _ _ hlower hline
  obtain ⟨hresult, hgains⟩ := hfollowsf.found 1 "M" middle f rfl hf fun j hj entry hentry => by
    obtain rfl : j = 0 := by omega
    cases hentry
    exact hlacksf
  obtain ⟨herror, -⟩ := hfollowsg.vain fun entry hentry => by
    simp only [List.mem_cons, List.not_mem_nil, or_false] at hentry
    rcases hentry with rfl | rfl
    · exact hlacksg
    · exact hlacksg'
  exact ⟨lower, middle, f, hline, hresult, hgains, herror⟩

end Jvm
