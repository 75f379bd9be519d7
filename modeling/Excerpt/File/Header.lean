import Excerpt.File.System

/-!
Looking up quoted headers: next to the file that includes them, then in each search directory in order.
-/

namespace Excerpt

inductive HeaderError where
  | notFound (header : String)
  | unreadable (path : String) (cause : FileError)
deriving DecidableEq, Repr

def HeaderError.message : HeaderError → String
  | notFound header => "header not found: " ++ header
  | unreadable path cause => "cannot read " ++ path ++ ": " ++ cause.message

/-- Directories in which headers are looked up, each once. -/
structure SearchPath where
  directories : List String
deriving DecidableEq, Repr, Inhabited

namespace SearchPath

def add (search : SearchPath) (directory : String) : SearchPath :=
  if search.directories.any (Path.same directory) then search else ⟨search.directories ++ [directory]⟩

def ofList (directories : List String) : SearchPath :=
  directories.foldl add ⟨[]⟩

def candidates (search : SearchPath) (header : String) (includer : Option String) : List String :=
  ((includer.bind Path.parent?).toList ++ search.directories).map fun directory => Path.join directory header

def resolve? (search : SearchPath) (system : FileSystem) (header : String) (includer : Option String) : Option String :=
  (search.candidates header includer).find? system.isFile

def read (search : SearchPath) (system : FileSystem) (header : String) (includer : Option String) :
    Except HeaderError (String × Document) :=
  match search.resolve? system header includer with
  | none => .error (.notFound header)
  | some path =>
    match system.read path with
    | .ok document => .ok (path, document)
    | .error cause => .error (.unreadable path cause)

end SearchPath

end Excerpt
