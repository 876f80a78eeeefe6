/-!
# Values

The machine has integers, null and the two output streams of its host; there are no other objects.
-/

namespace Jvm

/-- An output stream of the host. -/
inductive StreamHandle where
  | stdout
  | stderr
deriving DecidableEq, Repr

namespace StreamHandle

/-- The stream's name when it is printed. -/
def name : StreamHandle → String
  | .stdout => "java.io.PrintStream@stdout"
  | .stderr => "java.io.PrintStream@stderr"

end StreamHandle

/-- What a local variable or an operand stack slot holds. -/
inductive Value where
  | int (value : Int32)
  | stream (handle : StreamHandle)
  | null
deriving DecidableEq, Repr, Inhabited

/-- What an instruction needs a value to be. -/
inductive ValueKind where
  | int
  | reference
deriving DecidableEq, Repr

namespace ValueKind

/-- The kind's name in messages. -/
def name : ValueKind → String
  | .int => "int"
  | .reference => "reference"

end ValueKind

namespace Value

/-- The value as text: a decimal, the name of a stream, or `null`. -/
def display : Value → String
  | .int v => toString v.toInt
  | .stream handle => handle.name
  | .null => "null"

end Value

end Jvm
