import Excerpt.Proofs.Draft.ReadOnce
import Excerpt.Proofs.Program.Region

namespace Excerpt

namespace Program

/-- Without kept inclusions every file is expanded: a file is read only at a quoted directive, whose entry then names
it, and the directives in the file name that one as their parent. -/
theorem ofDocument_isFileExpanded (files : FileSystem) (search : SearchPath) (path : String) (document : Document)
    {file : Nat} (known : file < (ofDocument files search path document).files.size) :
    (ofDocument files search path document).isFileExpanded false file = true := by
  have unit := ofDocument_unrolled files search path document
  have once := ofDocument_readsOnce files search path document
  generalize ofDocument files search path document = program at known unit once
  -- A directive that brought in a file is quoted, and the file that holds it was brought in by its parent.
  have expanded : ∀ k file : Nat, file < program.files.size → (program.file file).includedBy = some k →
      program.isInclusionExpanded false k = true := by
    intro k
    induction k using Nat.strongRecOn with
    | ind k ih =>
      intro file known includedBy
      have inside := unit.nested.files file k known includedBy
      have present : (program.inclusion k).file.isSome = true := by
        rw [(once.headers k file inside).mpr ⟨known, includedBy⟩]
        rfl
      have quoted : (program.inclusion k).system = false := by
        obtain ⟨place, ⟨path, resolved, -⟩, -⟩ := (once.first k inside).mp present
        rw [once.resolved k inside, resolution] at resolved
        by_contra system
        rw [if_pos (by simpa using system)] at resolved
        cases resolved
      rw [isInclusionExpanded_eq unit.nested inside, quoted, present]
      cases isParent : (program.inclusion k).parent with
      | none => rfl
      | some parent =>
        have host := (unit.hosts k inside).trans isParent
        have item := (unit.inclusion inside).1
        exact ih parent (unit.nested.parents k parent inside isParent) _ (unit.nested.items _ item) host
  have present : program.files[file]? = some (program.file file) := by simp [Program.file, known]
  rw [isFileExpanded, present]
  dsimp only
  cases includedBy : (program.file file).includedBy with
  | none => rfl
  | some k => exact expanded k file known includedBy

end Program

end Excerpt
