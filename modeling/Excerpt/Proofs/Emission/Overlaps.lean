import Excerpt.Config.Basic
import Excerpt.Extraction
import Excerpt.Proofs.Closure.Chains
import Excerpt.Proofs.Draft.Tracing
import Excerpt.Proofs.Draft.Written
import Excerpt.Proofs.Program.Outermost
import Excerpt.Proofs.Surface.Laminar

/-!
Declarations of a unit never overlap without one containing the other.
-/

namespace Excerpt

namespace Program

variable {program : Program} {known : Document → Prop} {openings : List Opening}
  (opened : program.Opened known openings)
include opened

/-- Every declaration takes up a stretch of the tree of its file. -/
theorem Opened.exists_stretch {id : Nat} (inside : id < program.decls.size) :
    ∃ opening ∈ openings, ∃ own ∈ opening.document.tree.stretches,
      (program.decl id).span = own.inFile opening.draft.file := by
  obtain ⟨opening, member, -, new, old, same⟩ := opened.exists_opening inside
  have sound := opened.sound opening member
  -- Of an extent inside another one only that it is a stretch matters.
  have nesting : Extent.IsNesting fun inner _ => inner ∈ opening.document.tree.stretches :=
    ⟨fun inner => inner, fun inner _ => inner⟩
  have nests := Node.nests_of_stretches fun extent (listed : extent ∈ opening.document.tree.stretches) => listed
  have coded := sound.coded nesting (Surface.itemsOf_placed nesting (fun _ => trivial) nests opening.item sound.listed)
  obtain ⟨function, sits, -⟩ := coded.sits id new old
  obtain ⟨own, stretch, lies⟩ := sits.place
  exact ⟨opening, member, own, stretch, by rw [same, lies.span]⟩

variable (nested : ∀ opening ∈ openings, opening.document.tree.isWellNested = true)
include nested

/-- All items of a file come from one tree, wherever the file is brought in, so that no spans cross. -/
theorem Opened.laminar {decls : List DeclId} (inside : ∀ id ∈ decls, id < program.decls.size) :
    program.Laminar decls := by
  intro first member second other overlaps
  obtain ⟨opening, listed, own, stretch, span⟩ := opened.exists_stretch (inside first member)
  obtain ⟨opening', listed', own', stretch', span'⟩ := opened.exists_stretch (inside second other)
  rw [span, span'] at overlaps ⊢
  obtain ⟨file, starts, ends⟩ := overlaps_iff.mp overlaps
  rw [← opened.same opening listed opening' listed' file] at stretch'
  rcases Node.laminar_of_isWellNested (nested opening listed) stretch stretch' with
    within | around | before | behind
  · exact .inl (isWithin_iff.mpr ⟨file, within⟩)
  · exact .inr (isWithin_iff.mpr ⟨file.symm, around⟩)
  · exact absurd ends (Nat.not_lt.mpr before)
  · exact absurd starts (Nat.not_lt.mpr behind)

theorem Opened.proper {id : Nat} (inside : id < program.decls.size) :
    (program.decl id).span.start ≤ (program.decl id).span.stop := by
  obtain ⟨opening, listed, own, stretch, span⟩ := opened.exists_stretch inside
  rw [span]
  exact (Node.between_of_mem_stretches (nested opening listed) own stretch).proper

end Program

namespace Session

variable {session : Session}

/-- The unit was read from documents in whose trees children lie inside their parents and siblings follow one
another. -/
def IsWellNested (session : Session) : Prop :=
  ∃ files search path document, session.program = Program.ofDocument files search path document ∧
    ∀ opening ∈ Program.openingsOf files search path document, opening.document.tree.isWellNested = true

theorem IsWellNested.isRead (nested : session.IsWellNested) : session.IsRead := by
  obtain ⟨files, search, path, document, same, -⟩ := nested
  exact ⟨files, search, path, document, same⟩

theorem isWellNested_ofDocument (config : Config) {files : FileSystem}
    (headers : ∀ place header, (place, FileContent.document header) ∈ files.files → header.tree.isWellNested = true)
    (search : SearchPath) (path : String) {document : Document} (main : document.tree.isWellNested = true) :
    (config.session (.ofDocument files search path document)).IsWellNested :=
  ⟨files, search, path, document, rfl, (Program.openingsOf_opened headers search path main).documents⟩

theorem closure_eq_error {functions : List String} {error : Error} (failed : session.closure functions = .error error) :
    ∃ name ∈ functions, session.root name = .error error := by
  unfold closure at failed
  induction functions with
  | nil => cases failed
  | cons name rest ih =>
    rw [List.mapM_cons] at failed
    cases first : session.root name with
    | error cause =>
      rw [first] at failed
      cases failed
      exact ⟨name, List.mem_cons_self, first⟩
    | ok root =>
      cases others : rest.mapM session.root with
      | error cause =>
        rw [first, others] at failed
        rw [others] at ih
        obtain ⟨other, member, found⟩ := ih failed
        exact ⟨other, List.mem_cons_of_mem _ member, found⟩
      | ok roots =>
        rw [first, others] at failed
        cases failed

theorem root_ne_conflict (name : String) (first second : Location) :
    session.root name ≠ .error (.redundantDeclConflict first second) := by
  intro failed
  unfold root unresolved at failed
  split at failed
  · split at failed <;> cases failed
  · split at failed <;> cases failed
  · cases failed

/-- The outermost members of every set of declarations can be found, and so each closure can be printed. -/
theorem outermost_total (nested : session.IsWellNested) :
    (∀ decls : IdSet, (∀ id ∈ decls, id < session.program.decls.size) →
      ∃ kept, session.program.outermost decls = .ok kept ∧ ∀ id, id ∈ kept ↔ session.program.IsOutermost decls id) ∧
      ∀ functions,
        (∀ closure, session.closure functions = .ok closure →
          ∃ kept, session.extract functions = .ok ⟨closure, kept, session.emit closure kept⟩) ∧
        ∀ first second, session.extract functions ≠ .error (.redundantDeclConflict first second) := by
  have consistent := nested.isRead.consistent
  obtain ⟨files, search, path, document, same, nested⟩ := nested
  have opened := Program.ofDocument_opened files search path document
  rw [← same] at opened
  have total : ∀ decls : IdSet, (∀ id ∈ decls, id < session.program.decls.size) →
      ∃ kept, session.program.outermost decls = .ok kept ∧ ∀ id, id ∈ kept ↔ session.program.IsOutermost decls id := by
    intro decls inside
    obtain ⟨kept, found⟩ := Program.exists_outermost (opened.laminar nested inside)
    exact ⟨kept, found,
      fun id => Program.mem_outermost (fun id member => opened.proper nested (inside id member)) found⟩
  have printed : ∀ functions closure, session.closure functions = .ok closure →
      ∃ kept, session.extract functions = .ok ⟨closure, kept, session.emit closure kept⟩ := by
    intro functions closure found
    obtain ⟨kept, outermost, -⟩ := total closure.decls fun id marked => closure_lt consistent found marked
    exact ⟨kept, by simp only [extract, found, outermost]⟩
  refine ⟨total, fun functions => ⟨printed functions, fun first second failed => ?_⟩⟩
  cases found : session.closure functions with
  | ok closure =>
    obtain ⟨kept, extracted⟩ := printed functions closure found
    rw [extracted] at failed
    cases failed
  | error error =>
    simp only [extract, found] at failed
    cases failed
    obtain ⟨name, -, unresolved⟩ := closure_eq_error found
    exact root_ne_conflict name first second unresolved

def recordHeader : FileSystem :=
  ⟨[(["s.h"], .document (Written.document [("", .record "s" "v"), ("", .token "';" ";")]))], []⟩

/-- A unit that brings the header in and whose function is the first to name a structure `t`. -/
def hiddenTag : Session :=
  ({} : Config).session (.ofDocument recordHeader ⟨[]⟩ "unit.c"
    (Written.document
      [("", .inclusion "\"s.h\""),
        ("", .function "f"
          (.blockValue "parenthesized_expression" (.recordPointer "t" "p") (.token "number_literal" "1")))]))

set_option maxRecDepth 10000 in
theorem outermost_total_hiddenTag : hiddenTag.program.decls.size = 4 ∧
    (∃ kept, hiddenTag.program.outermost [0, 1, 2, 3] = .ok kept ∧
      ∀ id, id ∈ kept ↔ hiddenTag.program.IsOutermost [0, 1, 2, 3] id) ∧
    ∃ extraction, hiddenTag.extract ["f"] = .ok extraction ∧ extraction.closure.decls = [1, 2] := by
  let closure : Closure :=
    { roots := [1], decls := [1, 2], macros := [], needsUndef := [], renames := [], passSizes := [2] }
  have facts : hiddenTag.program.decls.size = 4 ∧ hiddenTag.closure ["f"] = .ok closure ∧
      (∀ id ∈ [0, 1, 2, 3], id < hiddenTag.program.decls.size) := by
    decide +kernel
  have nested : hiddenTag.IsWellNested := by
    refine isWellNested_ofDocument {} (fun place header known => ?_) ⟨[]⟩ "unit.c" (by decide +kernel)
    cases List.mem_singleton.mp known
    decide +kernel
  obtain ⟨size, found, inside⟩ := facts
  obtain ⟨total, printed⟩ := outermost_total nested
  obtain ⟨kept, extracted⟩ := (printed ["f"]).1 closure found
  exact ⟨size, total [0, 1, 2, 3] inside, _, extracted, rfl⟩

end Session

end Excerpt
