import Jvm.ClassFile.Parser
import Jvm.Error
import Jvm.Event
import Jvm.Path

/-!
# Loading classes

A loader looks for classes under its roots, in order, and keeps each class that it has loaded under
its internal name. A name that was looked up in vain is not kept, so a file that appears later is
found.
-/

namespace Jvm

/-- Roots to look under, and the classes loaded so far by internal name. -/
structure Loader where
  roots : List String
  cache : List (String × Class) := []
deriving Repr

/-- What a loader's work gives: a result, the loader after it, and what it logged, in order. -/
structure Loading (ε α : Type) where
  result : Except ε α
  loader : Loader
  events : List Event := []

namespace Loader

/-- The class of an internal name, if it was loaded before. -/
def cached? (loader : Loader) (name : String) : Option Class := loader.cache.lookup name

/-- Whether a class was loaded, by any spelling of its name. -/
def isLoaded (loader : Loader) (name : String) : Bool :=
  (loader.cached? (internalName name)).isSome

/-- Number of classes loaded. -/
def loadedCount (loader : Loader) : Nat := loader.cache.length

/-- The class of internal name `name` in the file at `path`. -/
def loadFile (files : FileSystem) (name path : String) : Except LoadFailure Class := do
  let bytes ← (files.read path).mapError .io
  let file ← (ClassFile.parse bytes).mapError .parse
  let c ← (Class.ofFile file).mapError .defect
  if c.name = name then return c else throw (.declares c.name)

/-- Tries roots in order until one gives the class. The answer has the roots that did not, and the
class with the path it came from. -/
def probe (files : FileSystem) (name : String) :
    List String → List Miss × Option (String × Class)
  | [] => ([], none)
  | root :: rest =>
    let path := Path.classFile root name
    match loadFile files name path with
    | .ok c => ([], some (path, c))
    | .error cause =>
      let (misses, found) := probe files name rest
      (⟨root, path, cause⟩ :: misses, found)

/-- The class of an internal name, from the cache or else from the first root that has it. -/
def search (files : FileSystem) (loader : Loader) (name : String) : Loading (List Miss) Class :=
  match loader.cached? name with
  | some c => { result := .ok c, loader }
  | none =>
    let (misses, found) := probe files name loader.roots
    let missed := misses.map (Event.missed name)
    match found with
    | some (path, c) =>
      { result := .ok c
        loader := { loader with cache := (name, c) :: loader.cache }
        events := missed ++ [.loaded name path] }
    | none => { result := .error misses, loader, events := missed }

/-- The class of a name; where no root gives it, the error says why. -/
def resolve (files : FileSystem) (loader : Loader) (name : String) : Loading Error Class :=
  let found := loader.search files (internalName name)
  { found with
    result := found.result.mapError fun misses => .classNotFound (internalName name) misses }

/-- The class of a name, or `none` if no root has a file for it. A file that is there and does not
give the class is an error. -/
def tryResolve (files : FileSystem) (loader : Loader) (name : String) :
    Loading Error (Option Class) :=
  let found := loader.search files (internalName name)
  { found with
    result :=
      match found.result with
      | .ok c => .ok (some c)
      | .error misses =>
        if misses.all (·.cause.isAbsence) then .ok none
        else .error (.classNotFound (internalName name) misses) }

/-! ## Methods through superclasses -/

/-- Looks for a method in a class and then in its superclasses, at most `limit` classes in all. A
superclass without a file ends the search. -/
def climb (files : FileSystem) (target : MemberRef) :
    (limit : Nat) → Class → Loader → Loading Stop (Class × Method)
  | 0, _, loader => { result := .error .unfinished, loader }
  | limit + 1, c, loader =>
    let absent : Stop := .failed (.methodNotFound target.owner target.name target.descriptor)
    match c.method? target.name target.descriptor with
    | some method => { result := .ok (c, method), loader }
    | none =>
      match c.superName with
      | none => { result := .error absent, loader }
      | some parent =>
        let found := loader.tryResolve files parent
        match found.result with
        | .error e => { found with result := .error (.failed e) }
        | .ok none => { found with result := .error absent }
        | .ok (some parent) =>
          let rest := climb files target limit parent found.loader
          { rest with events := found.events ++ rest.events }

/-- More classes than a search through superclasses can meet without meeting one twice: each is in
the cache or comes from a file of its own. -/
def climbLimit (files : FileSystem) (loader : Loader) : Nat :=
  loader.cache.length + files.contents.length + 1

/-- The method that a reference names, with the class that declares it. A class that is its own
superclass, directly or not, and has no such method leaves the search unfinished. -/
def findMethod (files : FileSystem) (loader : Loader) (target : MemberRef) :
    Loading Stop (Class × Method) :=
  let start := loader.resolve files target.owner
  match start.result with
  | .error e => { start with result := .error (.failed e) }
  | .ok c =>
    let rest := climb files target (climbLimit files loader) c start.loader
    { rest with events := start.events ++ rest.events }

end Loader

end Jvm
