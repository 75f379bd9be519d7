import Excerpt.Command.Outcome
import Excerpt.Tree.Text

/-!
The command, run in the working directory. The concrete tree of a file is read from a file beside it, whose name has
`.tree` behind it.
-/

namespace Excerpt.Command

/-- The files of a directory and below it, with their bytes, and the links, with the paths that they stand for. -/
partial def foundBelow (place : Place) (entries : Array IO.FS.DirEntry) : IO (List (Place × (ByteArray ⊕ String))) := do
  let mut found := []
  for entry in entries do
    let inside := place ++ [entry.fileName]
    match (← entry.path.symlinkMetadata).type with
    | .dir => found := found ++ (← foundBelow inside (← entry.path.readDir))
    | .symlink =>
      if ← entry.path.pathExists then found := found ++ [(inside, .inr (← IO.FS.realPath entry.path).toString)]
    | _ => found := found ++ [(inside, .inl (← IO.FS.readBinFile entry.path))]
  return found

/-- The file that holds the tree of another. -/
def treePlace (place : Place) : Place :=
  place.dropLast ++ [place.getLastD "" ++ ".tree"]

def textOf : ByteArray ⊕ String → Option (List Char)
  | .inl bytes => (String.fromUTF8? bytes).map String.toList
  | .inr _ => none

def contentOf (files : List (Place × (ByteArray ⊕ String))) (file : Place × (ByteArray ⊕ String)) : FileContent :=
  match file.2, textOf file.2 with
  | .inr target, _ => .link target
  | .inl _, none => .binary
  | .inl _, some text =>
    .document ⟨text, (((files.lookup (treePlace file.1)).bind textOf).bind Node.ofText?).getD default⟩

def workingFiles : IO FileSystem := do
  let directory ← IO.FS.realPath (← IO.currentDir)
  let files ← foundBelow [] (← directory.readDir)
  let set : FileSet := ⟨files.map fun file => (file.1, contentOf files file)⟩
  return set.seenAt (directory.components.filter (· ≠ ""))

/-- Prints and writes what a run left behind. -/
def perform (outcome : Outcome) : IO UInt32 := do
  for (place, text) in outcome.written do
    IO.FS.writeFile (String.intercalate "/" ("" :: place)) (String.ofList text)
  IO.print outcome.printed
  IO.eprint outcome.messages
  return outcome.status.toUInt32

end Excerpt.Command

def main (arguments : List String) : IO UInt32 := do
  Excerpt.Command.perform (Excerpt.Outcome.run (← Excerpt.Command.workingFiles) arguments)
