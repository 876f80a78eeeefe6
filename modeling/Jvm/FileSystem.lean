import Jvm.Bytes

/-!
# File systems

To a program that only reads files, a file system is what reading each path gives. It holds
finitely many contents.
-/

namespace Jvm

/-- Why reading or writing failed. -/
inductive IoError where
  /-- The path names nothing. -/
  | notFound
  /-- A file stands where the path needs a directory. -/
  | notDirectory
  /-- The path names a directory. -/
  | isDirectory
  | nameTooLong
  /-- The path holds a character that no path may hold. -/
  | nulInPath
  /-- Any other failure, with its text. -/
  | other (text : String)
deriving DecidableEq, Repr

namespace IoError

/-- The error as text. -/
def message : IoError → String
  | .notFound => "No such file or directory (os error 2)"
  | .notDirectory => "Not a directory (os error 20)"
  | .isDirectory => "Is a directory (os error 21)"
  | .nameTooLong => "File name too long (os error 36)"
  | .nulInPath => "file name contained an unexpected NUL byte"
  | .other text => text

end IoError

/-- What reading each path gives. -/
structure FileSystem where
  read : String → Except IoError Bytes
  /-- The contents of all files. -/
  contents : List Bytes
  mem_contents : ∀ {path bytes}, read path = .ok bytes → bytes ∈ contents

namespace FileSystem

/-- The file system of the paths whose reading is on record; there is nothing anywhere else. -/
def ofRecord (record : List (String × Except IoError Bytes)) : FileSystem where
  read path := (record.lookup path).getD (.error .notFound)
  contents := record.filterMap fun entry => entry.2.toOption
  mem_contents := by
    intro path bytes h
    induction record with
    | nil => cases h
    | cons entry record ih =>
      obtain ⟨key, result⟩ := entry
      rw [List.lookup_cons] at h
      split at h
      · simp only [Option.getD_some] at h
        subst h
        simp [Except.toOption]
      · have := ih h
        cases result with
        | error e => simpa [Except.toOption] using this
        | ok b => simp [Except.toOption] at this ⊢; exact Or.inr this

end FileSystem

end Jvm
