import Excerpt.Program.Basic

/-!
Expanded regions: the files whose text is taken into the output. A header is expanded when its directive is quoted, its
file was read there, and the directive itself lies in an expanded file.
-/

namespace Excerpt.Program

variable (program : Program) (keepIncludes : Bool)

/-- Whether one more inclusion is expanded, given the answers for the inclusions before it. -/
def expandsNext (flags : Array Bool) (inclusion : Inclusion) : Bool :=
  !keepIncludes && !inclusion.system && inclusion.file.isSome &&
    inclusion.parent.all fun parent => flags.getD parent false

/-- For each inclusion, whether it is expanded. A directive stands before those of the file that it brings in. -/
def expandedFlags : Array Bool :=
  program.includes.foldl (fun flags inclusion => flags.push (expandsNext keepIncludes flags inclusion)) #[]

def isInclusionExpanded (id : IncludeId) : Bool :=
  (program.expandedFlags keepIncludes).getD id false

def isFileExpanded (id : FileId) : Bool :=
  match program.files[id]? with
  | some file => file.includedBy.all fun inclusion => program.isInclusionExpanded keepIncludes inclusion
  | none => false

def isExpanded (pos : SourcePos) : Bool :=
  program.isFileExpanded keepIncludes (program.fileOf pos)

/-- At most `count` inclusions, from `start` outwards through their parents. -/
def inclusionsFrom : Nat → Option IncludeId → List IncludeId
  | count + 1, some id => id :: inclusionsFrom count (program.inclusion id).parent
  | _, _ => []

def inclusionsAround (id : FileId) : List IncludeId :=
  program.inclusionsFrom program.includes.size (program.file id).includedBy

/-- The file was brought in by the directive, directly or through other files. -/
def inSubtree (inclusion : IncludeId) (file : FileId) : Bool :=
  (program.inclusionsAround file).contains inclusion

/-- The item that stands for another one in the output: itself when its file is expanded, else the outermost
directive that hides it. -/
def emissionSlot (id : ItemId) : ItemId :=
  let hidden := (program.inclusionsAround (program.item id).file).takeWhile
    fun inclusion => !program.isInclusionExpanded keepIncludes inclusion
  match hidden.getLast? with
  | some inclusion => (program.inclusion inclusion).item
  | none => id

end Excerpt.Program
