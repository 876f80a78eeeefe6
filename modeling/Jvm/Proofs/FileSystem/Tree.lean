import Jvm.FileSystem.Tree
import Jvm.Proofs.Loader.Roots
import Jvm.Proofs.Path

/-!
# Class files in a tree

A walk through a tree goes component by component, and a component that is no way out goes one level down
(`enter_down`). The parts that a class name adds to a root are all of that kind. So a walk to a class file is
the walk to its root and from there straight down (`walk_classFile`), and whatever a class is loaded from
stands in the tree below its root: main theorem `gives_below`.
-/

namespace Jvm.FileTree

variable {tree : FileTree} {place after : Place} {component root name : String}

/-! ## Components -/

/-- An empty component stays, so it does not matter where another one comes next. -/
theorem enter_empty_bind (tree : FileTree) (place : Place) (component : String) :
    (tree.enter place "" >>= fun place => tree.enter place component) = tree.enter place component := by
  cases place with
  | none => rfl
  | some here =>
    cases hnode : tree.node? here with
    | none =>
      simp only [enter, hnode]
      rfl
    | some node =>
      cases node with
      | file bytes =>
        simp only [enter, hnode]
        rfl
      | directory =>
        have hstay : tree.enter (some here) "" = .ok (some here) := by simp only [enter, hnode, true_or, if_true]
        rw [hstay]
        rfl

theorem enter_empty_bind_foldlM {components : List String} (hne : components ≠ []) (place : Place) :
    (tree.enter place "" >>= fun place => components.foldlM tree.enter place) =
      components.foldlM tree.enter place := by
  cases components with
  | nil => exact absurd rfl hne
  | cons component rest =>
    simp only [List.foldlM_cons]
    rw [← bind_assoc, enter_empty_bind]

/-- A component that is no way out goes one level down. -/
theorem enter_down (h : tree.enter place component = .ok after)
    (hcomponent : component ≠ "" ∧ component ≠ "." ∧ component ≠ "..") :
    ∃ here, place = some here ∧ after = some (component :: here) := by
  obtain ⟨hempty, hdot, hdots⟩ := hcomponent
  unfold enter at h
  cases place with
  | none =>
    simp only [hempty, hdot, hdots, or_self, if_false] at h
    split at h <;> cases h
  | some here =>
    simp only [hempty, hdot, hdots, or_self, if_false] at h
    split at h
    · cases h
    · cases h
    · split at h
      · cases h
      · split at h <;> cases h
        exact ⟨here, rfl, rfl⟩

/-- Components that are no way out go straight down. -/
theorem foldlM_down {components : List String} (h : components.foldlM tree.enter place = .ok after)
    (hne : components ≠ []) (hdown : ∀ c ∈ components, c ≠ "" ∧ c ≠ "." ∧ c ≠ "..") :
    ∃ here, place = some here ∧ after = some (components.reverse ++ here) := by
  induction components generalizing place with
  | nil => exact absurd rfl hne
  | cons component rest ih =>
    rw [List.foldlM_cons] at h
    obtain ⟨next, hfirst, h⟩ := exists_of_bind_ok h
    obtain ⟨here, rfl, rfl⟩ := enter_down hfirst (hdown component List.mem_cons_self)
    cases rest with
    | nil =>
      cases h
      exact ⟨here, rfl, rfl⟩
    | cons second rest =>
      obtain ⟨_, hnext, rfl⟩ := ih h (List.cons_ne_nil _ _) fun c hc => hdown c (List.mem_cons_of_mem _ hc)
      cases hnext
      exact ⟨here, rfl, by simp⟩

/-! ## Walks -/

/-- The components of a class file are those of its root and the parts of the name. An empty component at the end
of the root has gone. -/
theorem exists_components (root : String) :
    ∃ before last, Text.splitString '/' root = before ++ last ∧ (last = [] ∨ last = [""]) ∧
      ∀ name, Text.splitString '/' (Path.classFile root (internalName name)) = before ++ Path.parts name := by
  have hempty : Text.splitString '/' "" = [""] := rfl
  by_cases hroot : root ≠ "" ∧ root.toList.getLast? ≠ some '/'
  · refine ⟨Text.splitString '/' root, [], (List.append_nil _).symm, .inl rfl, fun name => ?_⟩
    have hsplit := Text.splitString_append '/' root ("/".intercalate (Path.parts name))
    rw [Path.splitString_parts] at hsplit
    rw [Path.classFile_eq, Path.junction, if_pos hroot]
    exact hsplit
  · by_cases hnothing : root = ""
    · refine ⟨[], [""], by rw [hnothing, hempty, List.nil_append], .inr rfl, fun name => ?_⟩
      rw [Path.classFile_eq, Path.junction, if_neg hroot, hnothing, String.append_empty, String.empty_append,
        Path.splitString_parts, List.nil_append]
    · have hlast : root.toList.getLast? = some '/' := by
        by_contra h
        exact hroot ⟨hnothing, h⟩
      obtain ⟨before, hbefore⟩ := List.getLast?_eq_some_iff.1 hlast
      have hclosed : root = String.ofList before ++ String.singleton '/' := by
        rw [← String.toList_inj, hbefore]
        simp
      have hsplit := Text.splitString_append '/' (String.ofList before)
      refine ⟨Text.splitString '/' (String.ofList before), [""], ?_, .inr rfl, fun name => ?_⟩
      · have hroot := hsplit ""
        rwa [String.append_empty, hempty, ← hclosed] at hroot
      · rw [Path.classFile_eq, Path.junction, if_neg hroot, String.append_empty, hclosed, hsplit, Path.splitString_parts]

/-- A walk to a class file is the walk to its root and from there through the parts of the name. -/
theorem walk_classFile (tree : FileTree) (root name : String) :
    tree.walk (Path.classFile root (internalName name)) =
      tree.walk root >>= fun place => (Path.parts name).foldlM tree.enter place := by
  have hstart : (Path.classFile root (internalName name)).toList.head? = some '/' ↔ root.toList.head? = some '/' :=
    Path.isAbsolute_classFile root name
  obtain ⟨before, last, hroot, hlast, hfile⟩ := exists_components root
  simp only [walk, hstart, hroot, hfile, List.foldlM_append, bind_assoc]
  refine congrArg _ (funext fun place => ?_)
  rcases hlast with rfl | rfl
  · rw [List.foldlM_nil, pure_bind]
  · have hstay : [""].foldlM tree.enter place = tree.enter place "" := bind_pure _
    rw [hstay, enter_empty_bind_foldlM (Path.parts_ne_nil name)]

/-! ## Files -/

/-- A class file that can be read stands below its root. -/
theorem stands_of_read {bytes : Bytes} (h : tree.read (Path.classFile root (internalName name)) = .ok bytes) :
    ∃ here, tree.walk root = .ok (some here) ∧ tree.node? ((Path.parts name).reverse ++ here) = some (.file bytes) := by
  obtain ⟨place, hwalk, hnode⟩ := exists_place_of_read h
  rw [walk_classFile] at hwalk
  obtain ⟨start, hstart, hparts⟩ := exists_of_bind_ok hwalk
  obtain ⟨here, rfl, hplace⟩ := foldlM_down hparts (Path.parts_ne_nil name) fun part => Path.ne_dots_of_part
  rw [Option.some.inj hplace] at hnode
  exact ⟨here, hstart, hnode⟩

theorem toFileSystem_read (tree : FileTree) (path : String) : tree.toFileSystem.read path = tree.read path := rfl

/-- **What a class is loaded from stands below its root**, whatever the name: the file that gives the class is the
one at the parts of the name, below the place that the root leads to. -/
theorem gives_below {c : Class} (h : Loader.Gives tree.toFileSystem (internalName name) root c) :
    ∃ here bytes file, tree.walk root = .ok (some here) ∧
      tree.node? ((Path.parts name).reverse ++ here) = some (.file bytes) ∧
      ClassFile.parse bytes = .ok file ∧ Class.ofFile file = .ok c ∧ c.name = internalName name := by
  obtain ⟨bytes, file, hread, hparse, hclass, hname⟩ := h
  rw [toFileSystem_read] at hread
  obtain ⟨here, hwalk, hnode⟩ := stands_of_read hread
  exact ⟨here, bytes, file, hwalk, hnode, hparse, hclass, hname⟩

end Jvm.FileTree
