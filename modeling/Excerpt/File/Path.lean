/-!
Paths as text. Two paths are the same when their components are: repeated and trailing slashes do not count, nor does a
`.` that is not the first component. A `..` counts as written.
-/

namespace Excerpt.Path

def pieces : List Char → List (List Char)
  | [] => [[]]
  | c :: rest =>
    if c = '/' then [] :: pieces rest
    else
      match pieces rest with
      | first :: others => (c :: first) :: others
      | [] => [[c]]

def segments (path : String) : List String :=
  (pieces path.toList).map String.ofList

def isAbsolute (path : String) : Bool :=
  path.toList.head? == some '/'

def isComponent (index : Nat) (segment : String) : Bool :=
  segment ≠ "" && (segment ≠ "." || index == 0)

def indexedComponents (path : String) : List (Nat × String) :=
  ((segments path).zipIdx.map fun piece => (piece.2, piece.1)).filter fun piece => isComponent piece.1 piece.2

/-- What two spellings of one path have in common. -/
def components (path : String) : List String :=
  (if isAbsolute path then ["/"] else []) ++ (indexedComponents path).map (·.2)

def same (first second : String) : Bool :=
  components first == components second

/-- A path taken from a directory; an absolute path stands for itself. -/
def join (directory path : String) : String :=
  if isAbsolute path then path
  else if directory = "" || directory.toList.getLast? == some '/' then directory ++ path
  else directory ++ "/" ++ path

/-- The path without its last component, in its own spelling. -/
def parent? (path : String) : Option String :=
  match (indexedComponents path).reverse with
  | [] => none
  | [_] => some (if isAbsolute path then "/" else "")
  | _ :: (index, _) :: _ => some (String.intercalate "/" ((segments path).take (index + 1)))

end Excerpt.Path
