import Jvm.ClassFile.Reader
import Jvm.Defect
import Jvm.FileSystem

/-!
# Why a root did not give a class
-/

namespace Jvm

/-- Why a class file did not give the class that was asked for. -/
inductive LoadFailure where
  | io (cause : IoError)
  | parse (cause : ParseError)
  | defect (cause : Defect)
  /-- The file declares a class of another name. -/
  | declares (name : String)
deriving DecidableEq, Repr

namespace LoadFailure

/-- The failure as text. -/
def message : LoadFailure → String
  | .io cause => cause.message
  | .parse cause => cause.message
  | .defect cause => cause.message
  | .declares name => "file declares class " ++ name

/-- Whether there was no file at all. -/
def isAbsence (failure : LoadFailure) : Bool := failure == .io .notFound

end LoadFailure

/-- A root that did not give a class. -/
structure Miss where
  root : String
  /-- The path that was tried under the root. -/
  path : String
  cause : LoadFailure
deriving DecidableEq, Repr

namespace Miss

/-- The path and the cause. -/
def message (miss : Miss) : String := miss.path ++ ": " ++ miss.cause.message

/-- What a whole search that found nothing reports. -/
def summary (misses : List Miss) : String :=
  if misses.isEmpty then "classpath is empty" else "; ".intercalate (misses.map message)

end Miss

end Jvm
