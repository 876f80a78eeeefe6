import Jvm.Text.Split

/-!
# Class names and where their files are

A class name is turned into its internal form, with slashes between the parts, and the parts are
pushed onto a root one after the other. Pushing writes a slash where there is none, and an absolute
path that is pushed takes the place of what was there. A part of a name has no slash, so the file of
a class lies under its root whatever the name.
-/

namespace Jvm

/-- The internal form of a class name: dots become slashes. -/
def internalName (name : String) : String :=
  String.ofList (name.toList.map fun c => if c = '.' then '/' else c)

namespace Path

/-- The path with a slash at its end, unless it is empty or has one. -/
def closed (path : String) : String :=
  match path.toList.getLast? with
  | none => path
  | some c => if c = '/' then path else path ++ "/"

/-- A path that does not depend on where it is looked up. -/
def IsAbsolute (path : String) : Prop := path.toList.head? = some '/'

instance (path : String) : Decidable (IsAbsolute path) := inferInstanceAs (Decidable (_ = _))

/-- A path one segment deeper. An absolute segment replaces the path; an empty one only sees to the slash
at the end. -/
def push (path segment : String) : String :=
  if IsAbsolute segment then segment else closed path ++ segment

/-- Pushes the segments of a name; the last one is a file with the suffix `.class`. -/
def pushClass (path : String) : List String → String
  | [] => path
  | [file] => push path (file ++ ".class")
  | segment :: rest => pushClass (push path segment) rest

/-- Path of the class file for a name under a root. The name is split at its slashes only. -/
def classFile (root name : String) : String := pushClass root (Text.splitString '/' name)

/-- The roots that a path list names between its colons; empty pieces name none. -/
def roots (list : String) : List String :=
  (Text.splitString ':' list).filter fun root => !root.isEmpty

end Path

end Jvm
