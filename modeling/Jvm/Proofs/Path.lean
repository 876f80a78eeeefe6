import Mathlib
import Jvm.Path

/-!
# The file of a class lies under its root

A class file is under its root, behind a slash where the root has none: its path goes on with the
parts of the name, joined by single slashes. The parts are the segments of the internal form without
the empty ones, and the last segment with the suffix `.class` whether it is empty or not. Dots are
gone before the name is cut at its slashes, so no part is `.` or `..`, and no part holds a slash.

Main theorem `classFile_confined`: this is the path, nothing in it leads out of the root, and two
names share a file just if they share their last segment and their non-empty earlier ones.
-/

namespace Jvm

/-- An internal name has slashes where the name has dots. -/
theorem dot_not_mem_internalName (name : String) : '.' ∉ (internalName name).toList := by
  intro h
  rw [internalName, String.toList_ofList] at h
  obtain ⟨c, -, hc⟩ := List.mem_map.1 h
  split at hc
  · cases hc
  · contradiction

namespace Path

/-- The segments of a class name, cut at the slashes of its internal form. -/
def segments (name : String) : List String := Text.splitString '/' (internalName name)

/-- The segments before the last, without the empty ones. -/
def folders (name : String) : List String := (segments name).dropLast.filter (· ≠ "")

/-- The last segment, which may be empty. -/
def lastSegment (name : String) : String := (segments name).getLastD ""

/-- The parts of the path that a class name adds to a root. -/
def parts (name : String) : List String := folders name ++ [lastSegment name ++ ".class"]

/-- What stands between a root and the parts: a slash, unless the root is empty or ends in one. -/
def junction (root : String) : String :=
  if root ≠ "" ∧ root.toList.getLast? ≠ some '/' then "/" else ""

/-! ## Pushing -/

theorem closed_eq (path : String) : closed path = path ++ junction path := by
  unfold closed junction
  cases h : path.toList.getLast? with
  | none =>
    have hempty : path = "" := by simpa using h
    simp [hempty]
  | some c =>
    have hne : path ≠ "" := by
      rintro rfl
      simp at h
    by_cases hc : c = '/' <;> simp [hc, hne]

theorem junction_of_slash {path : String} (h : path.toList.getLast? = some '/') : junction path = "" := by
  simp [junction, h]

/-- A path that was closed is empty or ends in a slash. -/
theorem junction_closed (path : String) : junction (closed path) = "" := by
  by_cases h : path ≠ "" ∧ path.toList.getLast? ≠ some '/'
  · apply junction_of_slash
    rw [closed_eq, junction, if_pos h]
    simp
  · have hjunction : junction path = "" := if_neg h
    rw [closed_eq, hjunction, String.append_empty, hjunction]

theorem closed_closed (path : String) : closed (closed path) = closed path := by
  rw [closed_eq (closed path), junction_closed, String.append_empty]

/-- A segment without a slash is not absolute. -/
theorem push_of_slash_not_mem {segment : String} (path : String) (h : '/' ∉ segment.toList) :
    push path segment = closed path ++ segment := if_neg fun habsolute => h (List.mem_of_head? habsolute)

/-- A non-empty segment ends in no slash, so the next one is pushed behind a new one. -/
theorem closed_push {segment : String} (path : String) (hne : segment ≠ "") (h : '/' ∉ segment.toList) :
    closed (push path segment) = closed path ++ segment ++ "/" := by
  rw [push_of_slash_not_mem path h]
  have hlast : (closed path ++ segment).toList.getLast? ≠ some '/' := by
    intro hslash
    have hsegment : segment.toList ≠ [] := by simpa using hne
    rw [String.toList_append, List.getLast?_append_of_ne_nil _ hsegment] at hslash
    exact h (List.mem_of_getLast? hslash)
  have hpath : closed path ++ segment ≠ "" := by simp [hne]
  rw [closed_eq (closed path ++ segment), junction, if_pos ⟨hpath, hlast⟩]

theorem pushClass_cons (path segment : String) {rest : List String} (h : rest ≠ []) :
    pushClass path (segment :: rest) = pushClass (push path segment) rest := by
  cases rest with
  | nil => exact absurd rfl h
  | cons next rest => rfl

/-- Empty segments leave no trace, wherever they stand. -/
theorem pushClass_concat {earlier : List String} {last : String}
    (h : ∀ segment ∈ earlier ++ [last], '/' ∉ segment.toList) (path : String) :
    pushClass path (earlier ++ [last]) =
      closed path ++ "/".intercalate (earlier.filter (· ≠ "") ++ [last ++ ".class"]) := by
  induction earlier generalizing path with
  | nil =>
    have hfile : '/' ∉ (last ++ ".class").toList := by simpa using h last (by simp)
    simpa [pushClass] using push_of_slash_not_mem path hfile
  | cons segment earlier ih =>
    have hrest : earlier ++ [last] ≠ [] := by simp
    have hearlier : ∀ other ∈ earlier ++ [last], '/' ∉ other.toList :=
      fun other hother => h other (List.mem_cons_of_mem segment hother)
    rw [List.cons_append, pushClass_cons path segment hrest, ih hearlier]
    by_cases hempty : segment = ""
    · rw [push_of_slash_not_mem path (h segment (by simp))]
      simp [hempty, closed_closed]
    · have hfilter : (segment :: earlier).filter (· ≠ "") = segment :: earlier.filter (· ≠ "") := by
        simp [hempty]
      rw [closed_push path hempty (h segment (by simp)), hfilter, List.cons_append,
        String.intercalate_cons_of_ne_nil (by simp)]
      simp only [String.append_assoc]

/-! ## Segments and parts -/

theorem segments_ne_nil (name : String) : segments name ≠ [] := by
  simp [segments, Text.splitString, Text.splitAt_ne_nil]

theorem segments_eq (name : String) : segments name = (segments name).dropLast ++ [lastSegment name] := by
  have h := segments_ne_nil name
  rw [lastSegment, List.getLastD_eq_getLast?, List.getLast?_eq_some_getLast h, Option.getD_some,
    List.dropLast_concat_getLast h]

theorem slash_not_mem_of_segment {name segment : String} (h : segment ∈ segments name) :
    '/' ∉ segment.toList := by
  obtain ⟨piece, hpiece, rfl⟩ := List.mem_map.1 h
  rw [String.toList_ofList]
  exact Text.not_mem_of_mem_splitAt hpiece

theorem dot_not_mem_of_segment {name segment : String} (h : segment ∈ segments name) :
    '.' ∉ segment.toList := by
  obtain ⟨piece, hpiece, rfl⟩ := List.mem_map.1 h
  rw [String.toList_ofList]
  intro hdot
  exact dot_not_mem_internalName name (Text.mem_of_mem_splitAt hpiece hdot)

theorem lastSegment_mem (name : String) : lastSegment name ∈ segments name := by
  rw [segments_eq name]
  simp

theorem mem_segments_of_folder {name folder : String} (h : folder ∈ folders name) :
    folder ∈ segments name ∧ folder ≠ "" := by
  obtain ⟨hmem, hne⟩ := List.mem_filter.1 h
  exact ⟨List.mem_of_mem_dropLast hmem, by simpa using hne⟩

theorem parts_ne_nil (name : String) : parts name ≠ [] :=
  List.append_ne_nil_of_right_ne_nil _ (List.cons_ne_nil _ _)

theorem slash_not_mem_of_part {name part : String} (h : part ∈ parts name) : '/' ∉ part.toList := by
  rcases List.mem_append.1 h with hfolder | hfile
  · exact slash_not_mem_of_segment (mem_segments_of_folder hfolder).1
  · have hlast := slash_not_mem_of_segment (lastSegment_mem name)
    rw [List.mem_singleton.1 hfile]
    simpa using hlast

/-- The text under the root can be cut into the parts again. -/
theorem splitString_parts (name : String) :
    Text.splitString '/' ("/".intercalate (parts name)) = parts name := by
  have hne : (parts name).map String.toList ≠ [] := by simp [parts_ne_nil]
  have hslash : ∀ piece ∈ (parts name).map String.toList, '/' ∉ piece := by
    intro piece hpiece
    obtain ⟨part, hpart, rfl⟩ := List.mem_map.1 hpiece
    exact slash_not_mem_of_part hpart
  rw [Text.splitString, String.toList_intercalate]
  change (Text.splitAt '/' (['/'].intercalate _)).map _ = _
  rw [Text.splitAt_intercalate hne hslash, List.map_map]
  simp

theorem intercalate_parts_inj {name other : String} :
    "/".intercalate (parts name) = "/".intercalate (parts other) ↔ parts name = parts other := by
  constructor
  · intro h
    rw [← splitString_parts name, h, splitString_parts other]
  · intro h
    rw [h]

theorem parts_inj {name other : String} :
    parts name = parts other ↔ lastSegment name = lastSegment other ∧ folders name = folders other := by
  unfold parts
  constructor
  · intro h
    obtain ⟨hfolders, hfile⟩ := List.append_inj' h (by simp)
    exact ⟨(String.append_left_inj ".class").1 (List.singleton_inj.1 hfile), hfolders⟩
  · rintro ⟨hlast, hfolders⟩
    rw [hlast, hfolders]

/-- A part is no way out: it is a name without dots, or ends in the suffix. -/
theorem ne_dots_of_part {name part : String} (h : part ∈ parts name) :
    part ≠ "" ∧ part ≠ "." ∧ part ≠ ".." := by
  rcases List.mem_append.1 h with hfolder | hfile
  · obtain ⟨hsegment, hne⟩ := mem_segments_of_folder hfolder
    have hdot := dot_not_mem_of_segment hsegment
    refine ⟨hne, ?_, ?_⟩ <;> rintro rfl <;> simp at hdot
  · obtain rfl := List.mem_singleton.1 hfile
    -- The suffix alone is longer than any of the three.
    have hlength : 6 ≤ (lastSegment name ++ ".class").toList.length := by simp
    refine ⟨?_, ?_, ?_⟩ <;> intro heq <;> rw [heq] at hlength <;> simp at hlength

theorem not_isAbsolute_parts (name : String) : ¬IsAbsolute ("/".intercalate (parts name)) := by
  intro h
  cases hparts : parts name with
  | nil => exact absurd hparts (parts_ne_nil name)
  | cons part rest =>
    have hpart : part ∈ parts name := by simp [hparts]
    have hne : part.toList ≠ [] := by simpa using (ne_dots_of_part hpart).1
    have hslash := slash_not_mem_of_part hpart
    have hhead : ("/".intercalate (part :: rest)).toList.head? = part.toList.head? := by
      cases rest with
      | nil => simp
      | cons next rest => simp [String.intercalate_cons_cons, List.head?_append_of_ne_nil _ hne]
    rw [IsAbsolute, hparts, hhead] at h
    exact hslash (List.mem_of_head? h)

/-! ## The path -/

theorem classFile_eq (root name : String) :
    classFile root (internalName name) = root ++ junction root ++ "/".intercalate (parts name) := by
  have hslash : ∀ segment ∈ segments name, '/' ∉ segment.toList := fun segment => slash_not_mem_of_segment
  change pushClass root (segments name) = _
  rw [segments_eq name] at hslash ⊢
  rw [pushClass_concat hslash, closed_eq]
  rfl

theorem isAbsolute_append {root : String} (h : root ≠ "") (path : String) :
    IsAbsolute (root ++ path) ↔ IsAbsolute root := by
  have hroot : root.toList ≠ [] := by simpa using h
  rw [IsAbsolute, IsAbsolute, String.toList_append, List.head?_append_of_ne_nil _ hroot]

theorem isAbsolute_classFile (root name : String) :
    IsAbsolute (classFile root (internalName name)) ↔ IsAbsolute root := by
  by_cases hroot : root = ""
  · have hempty : classFile "" (internalName name) = "/".intercalate (parts name) := by
      simp [classFile_eq, junction]
    rw [hroot, hempty]
    constructor
    · intro h
      exact absurd h (not_isAbsolute_parts name)
    · intro h
      simp [IsAbsolute] at h
  · rw [classFile_eq, String.append_assoc]
    exact isAbsolute_append hroot _

/-- **Confinement.** The class file of a name stands under its root, whatever the name. -/
theorem classFile_confined (root name : String) :
    classFile root (internalName name) = root ++ junction root ++ "/".intercalate (parts name) ∧
      (∀ part ∈ Text.splitString '/' ("/".intercalate (parts name)), part ≠ "" ∧ part ≠ "." ∧ part ≠ "..") ∧
      ¬IsAbsolute ("/".intercalate (parts name)) ∧
      (IsAbsolute (classFile root (internalName name)) ↔ IsAbsolute root) ∧
      ∀ other, classFile root (internalName name) = classFile root (internalName other) ↔
        lastSegment name = lastSegment other ∧ folders name = folders other := by
  refine ⟨classFile_eq root name, ?_, not_isAbsolute_parts name, isAbsolute_classFile root name, ?_⟩
  · intro part hpart
    rw [splitString_parts] at hpart
    exact ne_dots_of_part hpart
  · intro other
    rw [classFile_eq, classFile_eq, String.append_right_inj, intercalate_parts_inj, parts_inj]

/-- A name full of dots stays below a root that already ends in a slash. -/
example : classFile "lib/" (internalName "../..//etc.") = "lib/etc/.class" := by decide +kernel

end Path

end Jvm
