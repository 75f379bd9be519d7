import Excerpt.Proofs.Draft.Reading

namespace Excerpt

variable {files : FileSystem} {path : String} {document : Document}

structure Draft.SameNames (draft other : Draft) : Prop where
  decls : other.program.decls = draft.program.decls
  chains : other.program.chains = draft.program.chains
  types : other.program.types = draft.program.types
  fileScope : other.fileScope = draft.fileScope
  blocks : other.blocks = draft.blocks
  defined : other.defined = draft.defined

theorem eq_ok_of_toOption {ε α : Type} {result : Except ε α} {value : α} (found : result.toOption = some value) :
    result = .ok value := by
  cases result with
  | error => cases found
  | ok => exact congrArg Except.ok (Option.some.inj found)

theorem FileSystem.locate_of_read (found : files.read path = .ok document) :
    ∃ place, files.locate path = .ok place ∧ (place, FileContent.document document) ∈ files.files := by
  unfold FileSystem.read at found
  split at found
  · cases found
  · next place located =>
    split at found
    · next known =>
      cases found
      obtain ⟨before, after, split, -⟩ := List.lookup_eq_some_iff.mp known
      exact ⟨place, located, split ▸ List.mem_append_right before List.mem_cons_self⟩
    · cases found
    · cases found

theorem FileSystem.mem_of_read (found : files.read path = .ok document) :
    ∃ place, (place, FileContent.document document) ∈ files.files := by
  obtain ⟨place, -, member⟩ := FileSystem.locate_of_read found
  exact ⟨place, member⟩

theorem SearchPath.read_eq_ok {search : SearchPath} {header : String} {includer : Option String}
    (found : search.read files header includer = .ok (path, document)) :
    files.read path = .ok document := by
  unfold SearchPath.read at found
  split at found
  · cases found
  · split at found
    · next read =>
      cases found
      exact read
    · cases found

theorem SearchPath.mem_of_read {search : SearchPath} {header : String} {includer : Option String}
    (found : search.read files header includer = .ok (path, document)) :
    ∃ place, (place, FileContent.document document) ∈ files.files :=
  FileSystem.mem_of_read (SearchPath.read_eq_ok found)

def Draft.found? (files : FileSystem) (search : SearchPath) (header : String) (system : Bool) (draft : Draft) :
    Option (String × Document) :=
  if system then none else (search.read files header (some (draft.program.file draft.file).path)).toOption

/-- The header that a directive reads: its path and its document, with the draft in which it is read. -/
def Draft.header? (files : FileSystem) (search : SearchPath) (header : String) (system : Bool) (draft : Draft) :
    Option (String × Document × Draft) :=
  let includer := draft.program.file draft.file
  let found : Option (String × Document) :=
    if system then none else (search.read files header (some includer.path)).toOption
  match found with
  | none => none
  | some (path, document) =>
    match files.locate path with
    | .error _ => none
    | .ok place =>
      if draft.read.contains place then none
      else
        some (path, document,
          { draft with
            program := draft.program.addInclude
              { spelled := header
                system
                resolved := some path
                file := none
                parent := includer.includedBy
                item := draft.item }
            read := place :: draft.read })

namespace Drafting

open Surface

section Headers

variable {search : SearchPath} {enter : String → Document → Option IncludeId → Drafting (Option FileId)} {draft : Draft}
  {header : String} {system : Bool}

/-- A directive either stays a line, with the path that was found, or its header is read in its place. -/
theorem gives_enterInclusion {post : ItemKind → Draft → Prop}
    (unread : draft.header? files search header system = none →
      post (.inclusion draft.program.includes.size)
        { draft with
          program := draft.program.addInclude
            ⟨header, system, (draft.found? files search header system).map Prod.fst, none,
              (draft.program.file draft.file).includedBy, draft.item⟩ })
    (read : ∀ path document opened, draft.header? files search header system = some (path, document, opened) →
      Gives (enter path document (some draft.program.includes.size)) opened fun file closed =>
        post (.inclusion draft.program.includes.size)
          { closed with
            program := (file.map fun file => closed.program.setIncludedFile draft.program.includes.size file).getD
              closed.program
            file := draft.file
            item := draft.item
            span := draft.span
            function := draft.function }) :
    Gives (enterInclusion files search enter header system) draft post := by
  simp only [enterInclusion, gives_bind, gives_get, gives_set]
  simp only [Draft.header?, Draft.found?] at unread read
  generalize (if system then none else (search.read files header
    (some (draft.program.file draft.file).path)).toOption) = found at unread read ⊢
  cases found with
  | none => exact unread rfl
  | some header =>
    obtain ⟨path, document⟩ := header
    dsimp only at unread read ⊢
    cases located : files.locate path with
    | error cause =>
      simp only [located] at unread
      exact unread trivial
    | ok place =>
      simp only [located] at unread read
      dsimp only
      cases seen : draft.read.contains place with
      | true =>
        simp only [seen, if_true] at unread
        exact unread trivial
      | false =>
        simp only [seen, Bool.false_eq_true, if_false] at read
        exact read path document _ rfl

theorem found_of_header {opened : Draft}
    (read : draft.header? files search header system = some (path, document, opened)) :
    draft.found? files search header system = some (path, document) ∧
      ∃ place, files.locate path = .ok place ∧ place ∉ draft.read ∧ opened =
        { draft with
          program := draft.program.addInclude
            ⟨header, system, some path, none, (draft.program.file draft.file).includedBy, draft.item⟩
          read := place :: draft.read } := by
  unfold Draft.header? at read
  dsimp only at read
  split at read
  · cases read
  · next found =>
    split at read
    · cases read
    · next place located =>
      split at read
      · cases read
      · next fresh =>
        cases read
        exact ⟨found, place, located, by simpa using fresh, rfl⟩

theorem mem_read_of_found {place : Place} (unread : draft.header? files search header system = none)
    (found : draft.found? files search header system = some (path, document))
    (located : files.locate path = .ok place) : place ∈ draft.read := by
  unfold Draft.found? at found
  unfold Draft.header? at unread
  dsimp only at unread
  rw [found] at unread
  simp only [located] at unread
  split at unread
  · next seen => simpa using seen
  · cases unread

theorem read_eq_ok_of_found
    (found : draft.found? files search header system = some (path, document)) :
    files.read path = .ok document := by
  unfold Draft.found? at found
  split at found
  · cases found
  · exact SearchPath.read_eq_ok (eq_ok_of_toOption found)

theorem mem_files_of_header {opened : Draft}
    (read : draft.header? files search header system = some (path, document, opened)) :
    ∃ place, (place, FileContent.document document) ∈ files.files :=
  FileSystem.mem_of_read (read_eq_ok_of_found (found_of_header read).1)

end Headers

def codeOf : Form → Drafting PUnit
  | .function storage isInline base declarator extent body => enterFunction storage isInline base declarator extent body
  | .declaration declaration => enterDeclaration declaration
  | _ => pure ()

theorem codeOf_steps (form : Form) (draft : Draft) : Gives (codeOf form) draft fun _ after => draft.Steps after := by
  cases form with
  | function storage isInline base declarator extent body =>
    exact enterFunction_steps storage isInline base declarator extent body draft
  | declaration declaration => exact enterDeclaration_steps declaration draft
  | _ => exact .refl

theorem addUses_sameNames (draft : Draft) (uses : List MacroUse) :
    draft.SameNames { draft with program := uses.foldl Program.addUse draft.program } := by
  induction uses generalizing draft with
  | nil => exact ⟨rfl, rfl, rfl, rfl, rfl, rfl⟩
  | cons first rest ih =>
    have later := ih { draft with program := draft.program.addUse first }
    exact ⟨later.decls, later.chains, later.types, later.fileScope, later.blocks, later.defined⟩

end Drafting

end Excerpt
