import Excerpt.File.Path
import Excerpt.Tree.Node

/-!
The files that a run can reach. A place is the list of names that lead from the root to a file or a directory. A name
has at most 255 bytes, a path fewer than 4096, and on the way of one path at most forty links are followed.
-/

namespace Excerpt

/-- Why a file cannot be read or written. -/
inductive FileError where
  | notFound
  | notADirectory
  | isADirectory
  | nameTooLong
  | tooManyLinks
  /-- The character NUL stands in the path. -/
  | nulInPath
  | notText
deriving DecidableEq, Repr

def FileError.message : FileError → String
  | notFound => "No such file or directory (os error 2)"
  | notADirectory => "Not a directory (os error 20)"
  | isADirectory => "Is a directory (os error 21)"
  | nameTooLong => "File name too long (os error 36)"
  | tooManyLinks => "Too many levels of symbolic links (os error 40)"
  | nulInPath => "file name contained an unexpected NUL byte"
  | notText => "stream did not contain valid UTF-8"

/-- A text with its concrete tree. A text that is not C has a tree without children. -/
structure Document where
  text : List Char
  tree : Node
deriving Repr, Inhabited

inductive FileContent where
  | document (document : Document)
  /-- Bytes that are not UTF-8. -/
  | binary
  /-- A symbolic link, with the path that it stands for. -/
  | link (target : String)
deriving Repr, Inhabited

abbrev Place := List String

/-- Files with their places, seen from a working directory. -/
structure FileSystem where
  files : List (Place × FileContent)
  directory : Place
deriving Repr, Inhabited

namespace FileSystem

variable (system : FileSystem)

def content? (place : Place) : Option FileContent :=
  system.files.lookup place

def isDirectory (place : Place) : Bool :=
  place.isPrefixOf system.directory || system.files.any fun file => place.isPrefixOf file.1 && place ≠ file.1

def isLongName (name : String) : Bool :=
  255 < name.utf8ByteSize

/-- Why nothing is found under a name. -/
def missing (name : String) : FileError :=
  if isLongName name then .nameTooLong else .notFound

def origin (place : Place) (path : String) : Place :=
  if Path.isAbsolute path then [] else place

/-- Follows the pieces of a path from a place. Behind a link `jump` goes on. -/
def followWith (jump : Place → List String → Except FileError Place) (place : Place) :
    List String → Except FileError Place
  | [] => .ok place
  | segment :: rest =>
    if !system.isDirectory place then .error .notADirectory
    else if segment = "" ∨ segment = "." then followWith jump place rest
    else if segment = ".." then followWith jump place.dropLast rest
    else
      match system.content? (place ++ [segment]) with
      | some (.link target) => jump (origin place target) (Path.segments target ++ rest)
      | some _ => followWith jump (place ++ [segment]) rest
      | none =>
        if system.isDirectory (place ++ [segment]) then followWith jump (place ++ [segment]) rest
        else .error (missing segment)

/-- Follows the pieces of a path from a place, over at most so many links. -/
def follow : Nat → Place → List String → Except FileError Place
  | 0 => system.followWith fun _ _ => .error .tooManyLinks
  | links + 1 => system.followWith (follow links)

def maxLinks : Nat := 40

def pathSegments (path : String) : Except FileError (List String) :=
  if path.toList.contains (Char.ofNat 0) then .error .nulInPath
  else if path = "" then .error .notFound
  else if 4096 ≤ path.utf8ByteSize then .error .nameTooLong
  else .ok (Path.segments path)

/-- The place that a path leads to, with links, `.` and `..` resolved. -/
def locate (path : String) : Except FileError Place :=
  (pathSegments path).bind (system.follow maxLinks (origin system.directory path))

def isFile (path : String) : Bool :=
  match system.locate path with
  | .ok place => (system.content? place).isSome
  | .error _ => false

def read (path : String) : Except FileError Document :=
  match system.locate path with
  | .error error => .error error
  | .ok place =>
    match system.content? place with
    | some (.document document) => .ok document
    | some .binary => .error .notText
    | _ => .error .isADirectory

/-- The place of a file with the given name, behind which a slash may follow, in a directory. -/
def placeIn (directory : Place) (name : String) (slash : Bool) : Except FileError Place :=
  if !system.isDirectory directory then .error .notADirectory
  else if slash || name = "." || name = ".." then .error .isADirectory
  else if isLongName name then .error .nameTooLong
  else if system.isDirectory (directory ++ [name]) then .error .isADirectory
  else .ok (directory ++ [name])

/-- The place at which a file for the pieces of a path from a place is written, at the end of fewer than so many
links. -/
def writeFrom : Nat → Place → List String → Except FileError Place
  | 0, _, _ => .error .tooManyLinks
  | links + 1, place, segments => do
    let slash := segments.reverse.head? == some ""
    match segments.reverse.dropWhile (· = "") with
    | [] => .error .isADirectory
    | name :: parents =>
      let directory ← system.follow maxLinks place parents.reverse
      match system.content? (directory ++ [name]), slash with
      | some (.link target), false => writeFrom links (origin directory target) (Path.segments target)
      | _, _ => system.placeIn directory name slash

def writePlace (path : String) : Except FileError Place :=
  (pathSegments path).bind (system.writeFrom (maxLinks + 1) (origin system.directory path))

/-- The pieces of a path to a place: from the working directory to what lies in it, from the root to all else. -/
def piecesTo (place : Place) : List String :=
  if system.directory.isPrefixOf place then place.drop system.directory.length else "" :: place

end FileSystem

structure FileSet where
  files : List (Place × FileContent)
deriving Repr, Inhabited

/-- The files seen from their directory, which stands at a place. -/
def FileSet.seenAt (set : FileSet) (place : Place) : FileSystem :=
  ⟨set.files.map fun file => (place ++ file.1, file.2), place⟩

/-- A directory of which nothing but its files is known stands where no path leads: an empty piece is no name. -/
instance : Coe FileSet FileSystem :=
  ⟨fun set => set.seenAt [""]⟩

end Excerpt
