import Jvm.FileSystem
import Jvm.Text.Split

/-!
# Directory trees in memory

A tree records files and directories below the directory that relative paths start from. Reading a
path walks through its components one by one: a name must stand in a directory, `.` stays, `..`
goes to the parent, and the first component that leads nowhere decides the error.
-/

namespace Jvm

/-- What stands at a place in a tree. -/
inductive FileNode where
  | file (bytes : Bytes)
  | directory
deriving DecidableEq, Repr

/-- Files and directories by the components of their paths, innermost first. -/
structure FileTree where
  nodes : List (List String × FileNode) := []
deriving DecidableEq, Repr, Inhabited

namespace FileTree

/-- Longest name of a file, in bytes. -/
def maxName : Nat := 255

/-- Longest path that can be opened, in bytes. -/
def maxPath : Nat := 4095

/-- What stands at a place; the starting directory is always there. -/
def node? (tree : FileTree) : List String → Option FileNode
  | [] => some .directory
  | place => tree.nodes.lookup place

/-- Where a walk is: at a place of the tree, or above its top, where nothing is known to be. -/
abbrev Place := Option (List String)

/-- Goes one component on from a place, which must be a directory. -/
def enter (tree : FileTree) (place : Place) (component : String) : Except IoError Place :=
  match place with
  | none =>
    if component = "" ∨ component = "." ∨ component = ".." then .ok none
    else if maxName < component.utf8ByteSize then .error .nameTooLong
    else .error .notFound
  | some here =>
    match tree.node? here with
    | none => .error .notFound
    | some (.file _) => .error .notDirectory
    | some .directory =>
      if component = "" ∨ component = "." then .ok place
      else if component = ".." then .ok (if here.isEmpty then none else some here.tail)
      else if maxName < component.utf8ByteSize then .error .nameTooLong
      else if (tree.node? (component :: here)).isNone then .error .notFound
      else .ok (some (component :: here))

/-- Where a path leads. A path from the root of the file system leaves the tree. -/
def walk (tree : FileTree) (path : String) : Except IoError Place :=
  let start : Place := if path.toList.head? = some '/' then none else some []
  (Text.splitString '/' path).foldlM tree.enter start

/-- The content of the file at a path. -/
def read (tree : FileTree) (path : String) : Except IoError Bytes :=
  if '\x00' ∈ path.toList then .error .nulInPath
  else if path.isEmpty then .error .notFound
  else if maxPath < path.utf8ByteSize then .error .nameTooLong
  else
    match tree.walk path with
    | .error e => .error e
    | .ok none => .error .isDirectory
    | .ok (some place) =>
      match tree.node? place with
      | some (.file bytes) => .ok bytes
      | some .directory => .error .isDirectory
      | none => .error .notFound

/-- The place that a plain relative path names. -/
def placeOf (path : String) : List String :=
  ((Text.splitString '/' path).filter fun c => c ≠ "" ∧ c ≠ ".").reverse

/-- Puts a node at a place, in directories made for it where there are none. -/
def put (tree : FileTree) (node : FileNode) : List String → FileTree
  | [] => tree
  | name :: parent =>
    let tree := if (tree.node? parent).isSome then tree else tree.put .directory parent
    ⟨(name :: parent, node) :: tree.nodes.filter fun entry => entry.1 ≠ name :: parent⟩

/-- Writes a file, in directories made for it. -/
def write (tree : FileTree) (path : String) (bytes : Bytes) : FileTree :=
  tree.put (.file bytes) (placeOf path)

/-- Makes a directory and those above it. -/
def makeDirectory (tree : FileTree) (path : String) : FileTree :=
  match tree.node? (placeOf path) with
  | some _ => tree
  | none => tree.put .directory (placeOf path)

/-- Removes a file, or a directory with all that is in it. -/
def delete (tree : FileTree) (path : String) : FileTree :=
  let place := placeOf path
  ⟨tree.nodes.filter fun entry => !place.isSuffixOf entry.1⟩

/-- The contents of all files. -/
def contents (tree : FileTree) : List Bytes :=
  tree.nodes.filterMap fun entry =>
    match entry.2 with
    | .file bytes => some bytes
    | .directory => none

theorem mem_contents_of_node? {tree : FileTree} {place : List String} {bytes : Bytes}
    (h : tree.node? place = some (.file bytes)) : bytes ∈ tree.contents := by
  cases place with
  | nil => cases h
  | cons name parent =>
    change tree.nodes.lookup (name :: parent) = some (.file bytes) at h
    unfold contents
    generalize tree.nodes = nodes at h
    induction nodes with
    | nil => cases h
    | cons entry nodes ih =>
      obtain ⟨key, node⟩ := entry
      rw [List.lookup_cons] at h
      split at h
      · simp only [Option.some.injEq] at h
        subst h
        simp
      · simp only [List.filterMap_cons]
        split
        · exact ih h
        · exact List.mem_cons_of_mem _ (ih h)

/-- What reading a path gives is the content of the file that the path leads to. -/
theorem exists_place_of_read {tree : FileTree} {path : String} {bytes : Bytes} (h : tree.read path = .ok bytes) :
    ∃ place, tree.walk path = .ok (some place) ∧ tree.node? place = some (.file bytes) := by
  unfold read at h
  by_cases hnul : '\x00' ∈ path.toList
  · rw [if_pos hnul] at h
    cases h
  by_cases hempty : path.isEmpty = true
  · rw [if_neg hnul, if_pos hempty] at h
    cases h
  by_cases hlong : maxPath < path.utf8ByteSize
  · rw [if_neg hnul, if_neg hempty, if_pos hlong] at h
    cases h
  rw [if_neg hnul, if_neg hempty, if_neg hlong] at h
  rcases hwalk : tree.walk path with e | (_ | place)
  · rw [hwalk] at h
    cases h
  · rw [hwalk] at h
    cases h
  · rw [hwalk] at h
    rcases hnode : tree.node? place with _ | (content | _)
    · simp only [hnode] at h
      cases h
    · simp only [hnode, Except.ok.injEq] at h
      exact ⟨place, rfl, h ▸ hnode⟩
    · simp only [hnode] at h
      cases h

theorem mem_contents_of_read {tree : FileTree} {path : String} {bytes : Bytes}
    (h : tree.read path = .ok bytes) : bytes ∈ tree.contents := by
  obtain ⟨place, -, hnode⟩ := exists_place_of_read h
  exact mem_contents_of_node? hnode

/-- The tree as a file system. -/
def toFileSystem (tree : FileTree) : FileSystem where
  read := tree.read
  contents := tree.contents
  mem_contents := mem_contents_of_read

end FileTree

end Jvm
